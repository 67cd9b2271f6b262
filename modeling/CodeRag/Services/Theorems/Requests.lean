import CodeRag.Services.Session
import CodeRag.Services.Theorems.Migration
import CodeRag.Services.Theorems.Project
import CodeRag.Storage.Theorems.Tidy

-- What a request does to the state of its session, given what the operations do that it consists of,
-- whichever of them fail.

namespace Conn

open EStateM World

variable {F : Floats} {α : Type} {w w' : World F} {embedder : Embedder F} {T : Rely (Db F)}

-- An open transaction stays open.
def sealing : Rely (World F) where
  rel w w'      := w.saved.isSome → w'.saved = w.saved
  refl _ _      := rfl
  trans h h' hs := (h' (by rw [h hs]; exact hs)).trans (h hs)

-- What happens to the tables as other sessions find them.
def publishes (T : Rely (Db F)) : Rely (World F) :=
  (T.comap committed).inter sealing

-- Outside of a transaction, a change of the tables is found by other sessions, and inside it is not.
theorem publishes_of_guarded (hg : guarded w w') (ht : w.saved = none → T w.db w'.db) :
    publishes T w w' := by
  refine ⟨?_, fun _ => hg.left⟩
  show T w.committed w'.committed
  unfold committed
  rw [hg.left]
  cases hs : w.saved
  case none    => exact ht hs
  case some db => exact T.refl db

theorem publishes_of_sealing (hs : w.saved.isSome) (h : sealing w w') : publishes T w w' := by
  refine ⟨?_, h⟩
  show T w.committed w'.committed
  obtain ⟨db, hdb⟩ := Option.isSome_iff_exists.mp hs
  unfold committed
  rw [h hs, hdb]
  exact T.refl _

-- A transaction that fails is not found by other sessions.
theorem publishes_of_transaction {x : Conn F Unit} (h : x.post (fun r w' =>
      (∀ e, r = .error e → w'.committed = w.committed) ∧
        (r = .ok () → w.saved = none ∧ w'.saved = none ∧ T w.db w'.db)) w)
    (hs : sealing w (x w).state) : publishes T w (x w).state := by
  refine ⟨?_, hs⟩
  show T w.committed (x w).state.committed
  cases hr : (x w).outcome
  case error e =>
    rw [h.left e hr]
    exact T.refl _
  case ok =>
    obtain ⟨hn, hn', ht⟩ := h.right hr
    rwa [committed_eq hn, committed_eq hn']

theorem listUnits_later : (listUnits (F := F)).post (fun r w' => (w.Reads w' ∧
    ∀ us, r = .ok us → us.map (·.toUnitRow) = w.db.units.rows) ∧ later w w') w :=
  post_and listUnits_post (select_built.later w)

theorem pathsMigrationDone_later : (pathsMigrationDone (F := F)).post (fun r w' => (w.Reads w' ∧
    ∀ b, r = .ok b → b = decide (w.db.meta? PATHS_MIGRATED_KEY = some "1")) ∧ later w w') w :=
  post_and pathsMigrationDone_post ((Built.bind metaGet_built fun _ => .pure).later w)

section Search

variable {S : Rely (World F)}

theorem searchUnits_within {closer : List F → VecRow F → VecRow F → Bool} {query : String} {limit : Nat}
    (ensure : (ensureEmbeddingsBound embedder).Within S) (embed : ∀ texts, (aembed embedder texts).Within S)
    (reads : ∀ w w', w.Reads w' → later w w' → S w w') : (searchUnits embedder closer query limit).Within S := by
  have hdim : (dimension (F := F)).Within S := by
    intro w
    rw [show (dimension w).state = w from dimension_post]
    exact S.refl w
  have hclosest : ∀ closer n dim, (closestUnits (F := F) closer n dim limit).Within S := by
    intro closer n dim w
    have htick : S w w.tick := reads _ _ .tick later_tick
    unfold closestUnits statement
    dsimp only
    split
    case isTrue  => exact htick
    case isFalse =>
      cases w.tick.db.embeddings
      case none => exact htick
      case some e =>
        dsimp only
        split
        case isTrue  => exact htick
        case isFalse => exact htick
  refine .bind ensure fun _ => .bind hdim fun dim => .bind (embed _) fun vectors => ?_
  cases vectors
  case nil => exact .throw
  case cons v _ =>
    refine .bind (hclosest _ _ _) fun rows => ?_
    split
    case isTrue  => exact .pure
    case isFalse => exact .bind (fun w => reads _ _ select_post.left (select_built.later w)) fun _ => .pure

end Search

section Open

variable {S : Rely (World F)}

-- Opening an index changes no table of the rows: it creates the table of the records, and a wipe drops the
-- vectors and their records.
theorem openDbConnection_within {wipe : Bool} (reads : ∀ w w', w.Reads w' → S w w')
    (create : (execute (F := F) fun db => .ok { db with indexMeta := some (db.indexMeta.getD .empty) }).Within S)
    (drop : (wipeEmbeddings (F := F)).Within S)
    (flags : ∀ f : World F → World F,
      (∀ w, (f w).calls = w.calls ∧ (f w).db = w.db ∧ (f w).saved = w.saved ∧ (f w).mode = w.mode) →
      (modify f : Conn F Unit).Within S) : (openDbConnection embedder wipe).Within S := by
  have hprepare : (prepare (F := F)).Within S := by
    intro w
    refine reads _ _ ?_
    unfold prepare statement
    cases w.faults 0 <;> exact .tick
  have hbase : (ensureBaseTables (F := F)).Within S :=
    .bind hprepare fun _ => .bind hprepare fun _ => .bind hprepare fun _ => .bind hprepare fun _ =>
      .bind hprepare fun _ => create
  have hfinish : (finalizeRwOpen embedder wipe).Within S := by
    refine .bind (flags _ fun w => ⟨rfl, rfl, rfl, rfl⟩) fun _ => ?_
    refine .bind (.bind .get fun w => ?_) fun exist => ?_
    · split
      case isTrue  => exact .pure
      case isFalse => exact fun w => reads _ _ select_post.left
    · split
      case isTrue  =>
        exact .bind (fun w => reads _ _ metaGet_post.left) fun _ => flags _ fun w => ⟨rfl, rfl, rfl, rfl⟩
      case isFalse => exact flags _ fun w => ⟨rfl, rfl, rfl, rfl⟩
  refine .bind .get fun w => ?_
  split
  case isTrue =>
    refine .bind (.bind hbase fun _ => ?_) fun _ => hfinish
    cases wipe
    case false => exact .pure
    case true  => exact drop
  case isFalse =>
    cases wipe
    case false => exact hfinish
    case true  => exact .throw

end Open
end Conn

namespace IndexStack

open Conn Coroutine World

variable {F : Floats} {stack : IndexStack F} {force : Bool} {units : List KnowledgeUnit}
variable {identity : String} {S S' : Rely (World F)} {w w' : World F}

theorem Within.mono (h : Within S stack units identity) (hS : ∀ w w', S w w' → S' w w') :
    Within S' stack units identity where
  get _ _           := hS _ _ (h.get _ _)
  distill _ _ _ _   := hS _ _ (h.distill _ _ _ _)
  has _ _           := hS _ _ (h.has _ _)
  ensure _          := hS _ _ (h.ensure _)
  embed _ _         := hS _ _ (h.embed _ _)
  upsert u hu _ _ _ := hS _ _ (h.upsert u hu _ _ _)
  delete _          := hS _ _ (h.delete _)

theorem Within.inter (h : Within S stack units identity) (h' : Within S' stack units identity) :
    Within (S.inter S') stack units identity where
  get _ _           := ⟨h.get _ _, h'.get _ _⟩
  distill _ _ _ _   := ⟨h.distill _ _ _ _, h'.distill _ _ _ _⟩
  has _ _           := ⟨h.has _ _, h'.has _ _⟩
  ensure _          := ⟨h.ensure _, h'.ensure _⟩
  embed _ _         := ⟨h.embed _ _, h'.embed _ _⟩
  upsert u hu _ _ _ := ⟨h.upsert u hu _ _ _, h'.upsert u hu _ _ _⟩
  delete _          := ⟨h.delete _, h'.delete _⟩

-- The sync of a file takes part in no transaction.
theorem within_guarded : Within guarded stack units identity where
  get _             := getUnit_built.guarded
  distill _ _ _ s   := by
    rw [distillUnitSummary_eq]
    exact ⟨rfl, rfl, fun _ => rfl⟩
  has _             := (Built.bind ensureEmbeddingsBound_built fun _ => select_built).guarded
  ensure            := ensureEmbeddingsBound_built.guarded
  embed _           := aembed_built.guarded
  upsert _ _ _ _    := upsertUnit_built.guarded
  delete            := deleteStaleUnits_built.guarded

theorem within_publishes {T : Rely (Db F)} (h : Within (T.comap World.db) stack units identity) :
    Within (publishes T) stack units identity :=
  (within_guarded.inter h).mono fun _ _ hs => publishes_of_guarded hs.left fun _ => hs.right

section Selection

variable {project : Project} {options : SyncOptions}

-- The path that a sync is asked for, once it is checked.
def validated (project : Project) (options : SyncOptions) : Except Exn (Option String) :=
  match options.path with
  | none | some "" => .ok none
  | some p         => some <$> project.validatePath p

theorem validated_none (h : options.path = none ∨ options.path = some "") :
    validated project options = .ok none := by
  unfold validated
  obtain h | h := h
  · rw [h]
  · rw [h]
    rfl

theorem validated_some {p : String} (h : options.path = some p) (hne : p ≠ "") :
    validated project options = some <$> project.validatePath p := by
  unfold validated
  rw [h]
  split
  case h_1 he => cases he
  case h_2 he => exact (hne (Option.some.inj he)).elim
  case h_3 he =>
    cases he
    rfl

-- A sync that starts its workers has selected their paths so.
theorem prelude_selects {w w' : World F} {selected : Option (List String)}
    (h : stack.prelude project options w = .ok selected w') :
    ∃ v, validated project options = .ok v ∧ selected = stack.selectPaths project options v := by
  have rest : ∀ v, (do
      syncDependencies project
      stack.migrateIfNeeded project options
      pure (stack.selectPaths project options v) : Conn F (Option (List String))) w = .ok selected w' →
      selected = stack.selectPaths project options v := by
    intro v h
    obtain ⟨_, w₁, _, h⟩ | ⟨e, w₁, _, h⟩ := EStateM.bind_cases h
    case inr => cases h
    obtain ⟨_, w₂, _, h⟩ | ⟨e, w₂, _, h⟩ := EStateM.bind_cases h
    case inr => cases h
    cases h
    rfl
  unfold prelude at h
  generalize ho : options.path = requested at h
  split at h
  case h_1   => exact ⟨none, validated_none (.inl ho), rest none h⟩
  case h_2   => exact ⟨none, validated_none (.inr ho), rest none h⟩
  case h_3 p hne =>
    cases hv : project.validatePath p <;> rw [hv] at h
    case error e => cases h
    case ok v    => exact ⟨some v, by rw [validated_some ho hne, hv]; rfl, rest (some v) h⟩

end Selection

section Requests

variable {filePath path : String} {stored : Option String} {paths : List String} {indexAll : Bool}
variable {n : Nat} {r : Except Exn (List (String × String))}

theorem syncFile_rel (h : ∀ units, stack.parser.distillFile filePath stored false = .ok units →
    Within S stack units (stored.getD filePath)) :
    S w ((stack.syncFile force filePath stored).run w).state := by
  cases hd : stack.parser.distillFile filePath stored false
  case error e =>
    have ⟨hs, _⟩ := wp_run <| wp_syncFile_of_error (R := .still) (G := fun s s' => s' = s) (s := w)
      force hd fun _ => rfl
    rw [show ((stack.syncFile force filePath stored).run w).state = w from hs]
    exact S.refl w
  case ok units => exact (wp_run ((h units hd).wp_syncFile force hd rfl)).left

private theorem wp_syncPath_rel (h : ∀ stored units, stack.parsesAt path stored units →
    Within S stack units (stored.getD path)) :
    (stack.syncPath force path).wp S S (fun _ s' => S w s') w :=
  wp_syncPath S.refl (fun _ hs _ => hs) fun stored units hp =>
    wp_mono ((h stored units hp).wp_syncFile force hp.right rfl) fun _ _ hr => hr.left

theorem embedAndUpsert_rel {embedder : Embedder F} (ensure : (ensureEmbeddingsBound embedder).Within S)
    (embed : ∀ texts, (aembed embedder texts).Within S)
    (upsert : ∀ u ∈ units, ∀ vector, (upsertUnit embedder u (some vector)).Within S) :
    S w ((embedAndUpsert embedder units).run w).state := by
  have h := wp_embedAndUpsert (R := .still) (G := S) (S := S) (J := fun u _ => u ∈ units) (s := w)
    (fun s _ h => by cases h; exact S.refl s) (fun _ _ => id) (fun _ _ _ h _ => h)
    (fun u v s hu _ => upsert u hu v s) ensure embed fun _ => id
  exact (wp_run h).left

theorem reembedIfDirty_rel
    (h : w.dirty → indexAll → S w ((reembedAllUnits stack.embedder).run w).state) :
    S w (stack.reembedIfDirty indexAll w).state := by
  unfold reembedIfDirty
  rw [EStateM.get_bind]
  cases hd : w.dirty
  case false => exact S.refl w
  case true  =>
    cases indexAll
    case false => exact S.refl w
    case true  => exact h hd rfl

theorem syncProject_rel
    (hr : w.dirty → indexAll → S w ((reembedAllUnits stack.embedder).run w).state)
    (hp : ∀ p ∈ paths, ∀ stored units, stack.parsesAt p stored units →
      Within S stack units (stored.getD p))
    (h : stack.SyncProject paths force indexAll n w r w') : S w w' := by
  have hre : S w (stack.reembedIfDirty indexAll w).state := reembedIfDirty_rel hr
  cases h
  case raised he =>
    rw [he] at hre
    exact hre
  case returned w₁ fs he hout =>
    rw [he] at hre
    refine S.trans hre (hout.rel (R := fun _ => S) (G := fun _ => S) (Q := fun _ _ s' => S w₁ s') ?_
      (fun p hm => wp_syncPath_rel (hp p hm)) fun _ _ _ _ => id)
    exact List.pairwise_of_forall fun _ _ => ⟨fun _ _ => id, fun _ _ => id⟩

variable {project : Project} {options : SyncOptions} {result : Except Exn SyncResult}

-- Nothing but the migration of the paths changes the units before the files are synced.
theorem prelude_rel (hd : ∀ l ∈ project.libraries, (setDependencyPath l.1 l.2).Within S)
    (hm : ∀ w₁, w₁.db.units = w.db.units → S w₁ (stack.migrateIfNeeded project options w₁).state) :
    S w (stack.prelude project options w).state := by
  set T : Rely (World F) := S.inter (.comap (·.db.units) .still)
  have hdep : ∀ l ∈ project.libraries, (setDependencyPath l.1 l.2).Within T := by
    refine fun l hl w => ⟨hd l hl w, ?_⟩
    have hx : (setDependencyPath l.1 l.2 : Conn F Unit).post _ w := execute_post
    obtain ⟨⟨f, hw⟩, _⟩ | ⟨db, f, hf, _, hw, _⟩ := hx
    case inl => rw [hw]; exact Rely.still.refl _
    case inr => cases hf; rw [hw]; exact Rely.still.refl _
  have hdeps : (syncDependencies project : Conn F Unit).Within T := by
    refine .tryCatch ?_ fun _ => .pure
    have h : ∀ ls : List (String × String), (∀ l ∈ ls, (setDependencyPath l.1 l.2).Within T) →
        (ls.forM fun l => setDependencyPath l.1 l.2 : Conn F Unit).Within T := by
      intro ls hls
      induction ls
      case nil          => exact .pure
      case cons l ls ih => exact .bind (hls l (.head _)) fun _ => ih fun l' hl => hls l' (.tail _ hl)
    exact h _ hdep
  have hrest : ∀ validated, (do
      syncDependencies project
      stack.migrateIfNeeded project options
      return stack.selectPaths project options validated : Conn F _).post (fun _ w' => S w w') w := by
    intro validated
    refine EStateM.post_bind (P := fun _ w₁ => T w w₁) (hdeps w) (fun _ w₁ h₁ => ?_) fun _ _ h => h.left
    have h₂ : (stack.migrateIfNeeded project options).post (fun _ w₂ => S w₁ w₂) w₁ := hm w₁ h₁.right
    exact EStateM.post_bind h₂ (fun _ _ h => EStateM.post_pure (S.trans h₁.left h)) fun _ _ h =>
      S.trans h₁.left h
  show (stack.prelude project options).post (fun _ w' => S w w') w
  unfold prelude
  split
  case h_1 => exact hrest none
  case h_2 => exact hrest none
  case h_3 p _ _ =>
    cases project.validatePath p
    case ok v    => exact hrest (some v)
    case error e => exact S.refl w

theorem runSync_rel (hd : ∀ l ∈ project.libraries, (setDependencyPath l.1 l.2).Within S)
    (hm : ∀ w₁, w₁.db.units = w.db.units → S w₁ (stack.migrateIfNeeded project options w₁).state)
    (hr : ∀ paths w₁, stack.prelude project options w = .ok (some paths) w₁ → w₁.dirty →
      options.indexAll → S w₁ ((reembedAllUnits stack.embedder).run w₁).state)
    (hp : ∀ paths w₁, stack.prelude project options w = .ok (some paths) w₁ → ∀ p ∈ paths, ∀ stored units,
      { stack with root := some options.root }.parsesAt p stored units →
        Within S stack units (stored.getD p))
    (h : stack.RunSync project options w result w') : S w w' := by
  have hpre := prelude_rel hd hm
  cases h
  case nothing => exact S.refl w
  case raised _ he =>
    rw [he] at hpre
    exact hpre
  case skipped _ he =>
    rw [he] at hpre
    exact hpre
  all_goals
    rename_i he h
    rw [he] at hpre
    refine S.trans hpre (syncProject_rel ?_ ?_ h)
    · exact hr _ _ he
    · exact fun p hm stored units hpar => { hp _ _ he p hm stored units hpar with }

-- The units that are listed first are embedded.
theorem reembedAllUnits_rel {embedder : Embedder F} (reads : ∀ w w', w.Reads w' → later w w' → S w w')
    (ensure : (ensureEmbeddingsBound embedder).Within S) (embed : ∀ texts, (aembed embedder texts).Within S)
    (upsert : ∀ u : KnowledgeUnit, u.toUnitRow ∈ w.db.units → ∀ vector,
      (upsertUnit embedder u (some vector)).Within S)
    (mark : (markEmbeddingModelSynced embedder).Within S) :
    S w ((reembedAllUnits embedder).run w).state := by
  unfold reembedAllUnits
  rw [run_bind, run_call]
  refine EStateM.post_bind (Q := fun _ w' => S w w') listUnits_later (fun units w₁ ⟨⟨hr, hu⟩, hl⟩ => ?_)
    fun _ _ h => reads _ _ h.left.left h.right
  have h₁ := reads _ _ hr hl
  have hl : ∀ u ∈ units, ∀ vector, (upsertUnit embedder u (some vector)).Within S := by
    intro u hm
    refine upsert u ?_
    rw [←Table.mem_rows, ←hu units rfl]
    exact List.mem_map_of_mem hm
  rw [run_bind]
  have h₂ : (embedAndUpsert embedder units).run.post (fun _ w' => S w w') w₁ :=
    S.trans h₁ (embedAndUpsert_rel ensure embed hl)
  refine EStateM.post_bind h₂ (fun _ w₂ h₂ => ?_) fun _ _ => id
  rw [run_call]
  exact S.trans h₂ (mark w₂)

-- Neither the sync of a file nor that of several files takes part in a transaction.
theorem syncFile_guarded : guarded w ((stack.syncFile force filePath stored).run w).state :=
  syncFile_rel fun _ _ => within_guarded

theorem syncProject_guarded (h : stack.SyncProject paths force indexAll n w r w') : guarded w w' := by
  refine syncProject_rel (fun _ _ => reembedAllUnits_rel ?_ ?_ ?_ ?_ ?_) (fun _ _ _ _ _ => within_guarded) h
  · rintro w _ ⟨f, rfl⟩ _
    exact ⟨rfl, rfl, fun _ => rfl⟩
  · exact ensureEmbeddingsBound_built.guarded
  · exact fun _ => aembed_built.guarded
  · exact fun _ _ _ => upsertUnit_built.guarded
  · exact .bind metaSet_built.guarded fun _ w => ⟨rfl, rfl, fun _ => rfl⟩

end Requests
end IndexStack

namespace PathMigration

open Conn World

variable {F : Floats} {w : World F} {S : Rely (World F)} {parser : MultiParser} {root : String}
variable {files : List String} {mapping : List (String × String)}

-- A stored path and the relative path of itself or of a file that is visited.
def Relocates (parser : MultiParser) (root : String) (files : List String) (db : Db F) (m : String × String) :
    Prop :=
  (∃ u ∈ db.units, u.path = m.1) ∧
    ∃ path, (path = m.1 ∨ path ∈ files) ∧ parser.files.projectRelativePosix path root = .ok m.2

theorem relocates_of_claimed {db : Db F} {units : List KnowledgeUnit}
    (hu : ∀ u ∈ units, u.toUnitRow ∈ db.units) :
    ∀ m ∈ claimRelativePaths parser.files (groupsOf units) root (parsedFiles parser files),
      Relocates parser root files db m := by
  intro m hm
  have hown : Owners parser.files root (groupsOf units) _ := owners_foldl
    (fun group hg => (groupsOf_paths.right group.1 (List.mem_map_of_mem hg)).left) groupsOf_paths.left
  have hf : Follows parser.files (groupsOf units) root (parsedFiles parser files) _ :=
    (claimed_foldl hown).follows hown
  refine ⟨(claimRelativePaths_migration hu).stored m hm, ?_⟩
  cases hp : parser.files.projectRelativePosix m.1 root
  case ok rel  => exact ⟨m.1, .inl rfl, by rw [hf.own m hm rel hp, hp]⟩
  case error e =>
    obtain ⟨file, hfile, _, hr, _⟩ := hf.eligible m hm ⟨e, hp⟩
    refine ⟨file.1, .inr ?_, hr⟩
    obtain ⟨path, hm, hpath⟩ := List.mem_filterMap.mp hfile
    obtain ⟨_, _, rfl⟩ := Option.map_eq_some_iff.mp hpath
    exact hm

theorem commitAll_within (h : ∀ m ∈ mapping, (commitRewrittenPath m.1 m.2).Within S) :
    (commitAll mapping : Conn F _).Within S := by
  induction mapping
  case nil => exact .pure
  case cons m ms ih =>
    refine .bind (.tryCatch (.bind (h m (.head _)) fun _ => .pure) fun _ => .pure) fun _ => ?_
    exact .bind (ih fun m' hm => h m' (.tail _ hm)) fun _ => .pure

theorem migrateAbsolutePaths_rel (reads : ∀ w w', w.Reads w' → later w w' → S w w')
    (commit : ∀ m, Relocates parser root files w.db m → (commitRewrittenPath m.1 m.2).Within S)
    (delete : ∀ paths, (deleteAbsolutePaths paths).Within S) (mark : markPathsMigrated.Within S) :
    S w (migrateAbsolutePaths parser root files w).state := by
  refine EStateM.post_bind (Q := fun _ w' => S w w') pathsMigrationDone_later
    (fun done w₁ ⟨⟨hr₁, _⟩, hl₁⟩ => ?_) fun _ _ h => reads _ _ h.left.left h.right
  have h₁ := reads _ _ hr₁ hl₁
  split
  case isTrue => exact EStateM.post_pure h₁
  refine EStateM.post_bind (Q := fun _ w' => S w w') listUnits_later (fun units w₂ ⟨⟨hr₂, hu⟩, hl₂⟩ => ?_)
    fun _ _ h => S.trans h₁ (reads _ _ h.left.left h.right)
  have h₂ := S.trans h₁ (reads _ _ hr₂ hl₂)
  have hrest : ∀ {x : Conn F Bool}, x.Within S → x.post (fun _ w' => S w w') w₂ :=
    fun hx => S.trans h₂ (hx w₂)
  have hunits : ∀ u ∈ units, u.toUnitRow ∈ w.db.units := by
    intro u hm
    obtain ⟨f, rfl⟩ := hr₁
    rw [←Table.mem_rows, ←hu units rfl]
    exact List.mem_map_of_mem hm
  dsimp only
  split
  case isTrue  => exact hrest (.bind (.bind .pure fun _ => mark) fun _ => .pure)
  case isFalse =>
    refine hrest (.bind (commitAll_within fun m hm => commit m (relocates_of_claimed hunits m hm)) fun failed => ?_)
    have hmark : ∀ c : Prop, [Decidable c] → (do
        if c then markPathsMigrated
        return true : Conn F Bool).Within S := by
      intro c _
      split
      case isTrue  => exact .bind mark fun _ => .pure
      case isFalse => exact .pure
    split
    case isTrue  => exact .bind (delete _) fun _ => hmark _
    case isFalse => exact hmark _

end PathMigration

namespace IndexStack

open Conn World PathMigration

variable {F : Floats} {stack : IndexStack F} {S : Rely (World F)} {project : Project} {options : SyncOptions}

variable {w : World F}

theorem migrateIfNeeded_rel (reads : ∀ w w', w.Reads w' → later w w' → S w w')
    (migrate : ∀ w₁, w₁.db.units = w.db.units → S w₁ (migrateAbsolutePaths stack.parser options.root
      (stack.indexableUnder project options options.root) w₁).state) :
    S w (stack.migrateIfNeeded project options w).state := by
  refine EStateM.post_bind (Q := fun _ w' => S w w') pathsMigrationDone_later
    (fun done w₁ ⟨⟨hr, _⟩, hl⟩ => ?_) fun _ _ h => reads _ _ h.left.left h.right
  have h₁ := reads _ _ hr hl
  split
  case isFalse => exact EStateM.post_pure h₁
  case isTrue  =>
    have h₂ : (migrateAbsolutePaths stack.parser options.root
        (stack.indexableUnder project options options.root)).post (fun _ w₂ => S w w₂) w₁ := by
      obtain ⟨f, rfl⟩ := hr
      exact S.trans h₁ (migrate _ rfl)
    refine EStateM.post_tryCatch (P := fun _ w₂ => S w w₂) ?_ (fun _ _ h => h) fun _ _ h => EStateM.post_pure h
    exact EStateM.post_bind h₂ (fun _ _ h => EStateM.post_pure h) fun _ _ h => h

-- A sync of the project looks at a path: that of a file below its root, a stored one, or one that it
-- selects.
def LooksAt (stack : IndexStack F) (project : Project) (options : SyncOptions) (w : World F) (path : String) :
    Prop :=
  path ∈ stack.indexableUnder project options options.root ∨ (∃ u ∈ w.db.units, u.path = path) ∨
    ∃ paths w', stack.prelude project options w = .ok (some paths) w' ∧ path ∈ paths

end IndexStack
