import CodeRag.Intelligence.Theorems.OpenaiEmbedder
import CodeRag.Services.Theorems.Requests
import CodeRag.Services.Theorems.Sample
import CodeRag.Storage.Theorems.Recorded

-- Whether the model and the width that an index records belong together, over sessions of any models.

namespace IndexStack

open Conn Coroutine World

variable {F : Floats} {stack : IndexStack F} {models : Models F} {units : List KnowledgeUnit}
variable {identity : String} {w w' : World F} {project : Project} {options : SyncOptions}

theorem within_recording (hc : stack.embedder.Computes models) :
    Within (recording models stack.embedder) stack units identity where
  get _ w h         := h.reads getUnit_post.left (getUnit_built.later w)
  distill _ _ _ s h := by
    rw [distillUnitSummary_eq]
    exact h.congr h.faultFree h.saved rfl rfl .refl h.dimension id id
  has _             := hasEmbedding_recording hc
  ensure            := ensure_recording hc
  embed _ _ h       := h.aembed
  upsert _ _ _ _    := upsertUnit_recording hc
  delete            := deleteStaleUnits_recording hc

-- The vectors of another model are replaced when there is a unit, and the widths agree otherwise.
def Replaces (models : Models F) (embedder : Embedder F) (w : World F) : Prop :=
  w.dirty → w.db.units.rows = [] →
    ∀ d ∈ w.db.meta? META_DIM_KEY, d = toString (models.width embedder.modelId)

-- Once the embedder is bound, it stays so.
private theorem embedAndUpsert_recorded {embedder : Embedder F} (h : w.Recorded models embedder)
    (hb : w.bound) (hc : embedder.Computes models) :
    ((embedAndUpsert embedder units).run w).state.Recorded models embedder ∧
      ((embedAndUpsert embedder units).run w).state.bound := by
  refine embedAndUpsert_rel (S := .keeps fun w => w.Recorded models embedder ∧ w.bound) ?_ ?_ ?_ ⟨h, hb⟩
  · exact fun w h => ⟨ensure_recording hc w h.left, by rw [ensure_of_bound h.right]; exact h.right⟩
  · intro texts w h
    have ⟨f, hw⟩ := (aembed_post : (aembed embedder texts).post _ w).left
    exact ⟨h.left.aembed, by rw [hw]; exact h.right⟩
  · intro u _ vector w h
    refine ⟨upsertUnit_recording hc w h.left, ?_⟩
    obtain ⟨w₁, hu⟩ := (upsertUnit_post : (upsertUnit embedder u (some vector)).post _ w)
    obtain ⟨f, hw⟩ := hu.frame
    rw [hw]
    exact hu.binds.bound h.right

theorem reembedAllUnits_recorded {embedder : Embedder F} (h : w.Recorded models embedder)
    (hd : w.dirty) (hc : embedder.Computes models) (hr : Replaces models embedder w) :
    ((reembedAllUnits embedder).run w).state.Recorded models embedder := by
  have hlist : listUnits w = .ok _ w := select_of_faultFree h.faultFree
  unfold reembedAllUnits
  rw [run_bind, run_call, EStateM.bind_of_ok hlist, run_bind, run_call]
  cases hu : w.db.units.rows
  case nil =>
    refine markEmbeddingModelSynced_recorded h ?_
    obtain ⟨he, _⟩ | ⟨m, hm, hdim, _⟩ := h.recorded
    case inl =>
      have := h.dirty hd
      rw [he] at this
      cases this
    case inr =>
      have hw := congrArg parseDigits (hr hd hu _ hdim)
      rw [parseDigits_toString, parseDigits_toString] at hw
      rw [hm, hw]
  case cons u us =>
    set units : List KnowledgeUnit := (u :: us).map fun u => { toUnitRow := u, relations := [] }
    have hens : (ensureEmbeddingsBound embedder).post _ w := ensure_recorded h hc
    have hrun : (embedAndUpsert embedder units).run = ensureEmbeddingsBound embedder >>= fun _ =>
        (embedBatches embedder (batches EMBEDDING_BATCH_SIZE units)).run := by
      rw [embedAndUpsert, if_neg (by simp [units]), run_bind, run_call]
    rw [hrun, bind_assoc]
    refine EStateM.post_bind (Q := fun _ w' => w'.Recorded models embedder) hens ?_ fun _ _ h => h.left
    rintro _ w₁ ⟨h₁, hb⟩
    have hb := hb rfl
    -- The units are embedded as if they were embedded again.
    have hsame : (embedBatches embedder (batches EMBEDDING_BATCH_SIZE units)).run w₁ =
        (embedAndUpsert embedder units).run w₁ := by
      rw [hrun, EStateM.bind_of_ok (ensure_of_bound hb)]
    have hp : ((embedBatches embedder (batches EMBEDDING_BATCH_SIZE units)).run).post
        (fun _ w₂ => w₂.Recorded models embedder ∧ w₂.bound) w₁ := by
      rw [EStateM.post, hsame]
      exact embedAndUpsert_recorded h₁ hb hc
    refine EStateM.post_bind hp ?_ fun _ _ h => h.left
    rintro _ w₂ ⟨h₂, hb₂⟩
    exact markEmbeddingModelSynced_recorded h₂ (h₂.bound hb₂)

theorem syncProject_recording {paths : List String} {force indexAll : Bool} {n : Nat}
    {r : Except Exn (List (String × String))} (hc : stack.embedder.Computes models)
    (hr : indexAll → Replaces models stack.embedder w)
    (hs : stack.SyncProject paths force indexAll n w r w') : recording models stack.embedder w w' :=
  syncProject_rel (fun hd hi h => reembedAllUnits_recorded h hd hc (hr hi))
    (fun _ _ _ _ _ => within_recording hc) hs

theorem runSync_recording {r : Except Exn SyncResult} (hc : stack.embedder.Computes models)
    (hr : ∀ paths w₁, stack.prelude project options w = .ok (some paths) w₁ → options.indexAll →
      Replaces models stack.embedder w₁)
    (hs : stack.RunSync project options w r w') : recording models stack.embedder w w' := by
  refine runSync_rel (fun _ _ => setDependencyPath_recording) (fun w₁ _ => ?_)
    (fun paths w₁ hp hd hi h => reembedAllUnits_recorded h hd hc (hr paths w₁ hp hi))
    (fun _ _ _ _ _ _ _ _ => within_recording hc) hs
  refine migrateIfNeeded_rel (fun _ _ hr hl h => h.reads hr hl) fun w₂ _ => ?_
  exact PathMigration.migrateAbsolutePaths_rel (fun _ _ hr hl h => h.reads hr hl)
    (fun _ _ => commitRewrittenPath_recording) (fun _ => deleteAbsolutePaths_recording)
    markPathsMigrated_recording

end IndexStack

namespace Session

open Conn World

variable {F : Floats} {models : Models F} {s s' : Session F} {a : Request F} {r : Reply}

-- No storage statement fails, and every embedder computes the vectors of its model and is bound to no
-- other width.
def Faultless (models : Models F) : Request F → Prop
  | .reopen embedder _ _ width faults _ =>
    embedder.Computes models ∧ faults = noFaults ∧ ∀ n ∈ width, n = models.width embedder.modelId
  | .syncFile .. | .syncProject .. | .runSync .. | .search .. => True

-- No sync of all files finds the vectors of a model of another width, but no unit.
def Replaces (models : Models F) (s : Session F) : Request F → Prop
  | .syncProject _ _ _ indexAll _ => indexAll → IndexStack.Replaces models s.embedder s.world
  | .runSync stack project options => ∀ paths w,
    stack.prelude project options s.world = .ok (some paths) w → options.indexAll →
      IndexStack.Replaces models s.embedder w
  | .reopen .. | .syncFile .. | .search .. => True

-- The width that is recorded is that of the model that is recorded.
def OneModel (models : Models F) (s : Session F) : Prop :=
  ∀ m d, s.world.db.meta? META_MODEL_KEY = some m → s.world.db.meta? META_DIM_KEY = some d →
    d = toString (models.width m)

-- No vector is rejected for its width: neither does a bound embedder refuse one that its service gives,
-- nor the table one that a bound embedder computes.
structure Accepts (models : Models F) (s : Session F) : Prop where
  embedder : ∀ service : OpenAICompatEmbedder F, s.embedder = service.toEmbedder →
    service.HasWidth (models.width s.embedder.modelId) →
    ∀ texts, s.embedder.aembed s.world.dimension texts = s.embedder.aembed none texts
  table    : s.world.bound → ∃ e, s.world.db.embeddings = some e ∧
    ∀ text, e.Fits (models.embedding s.embedder.modelId text)

-- A later session with the recorded model binds its embedder, and rejects none of its vectors.
def Reopens (models : Models F) (s : Session F) : Prop :=
  ∀ (embedder : Embedder F) mode width llmFaults, embedder.Computes models →
    (∀ n ∈ width, n = models.width embedder.modelId) →
    s.world.committed.meta? META_MODEL_KEY = some embedder.modelId →
    ∃ w w', openDbConnection embedder false (.connect s.world.committed mode width noFaults llmFaults) =
      .ok () w ∧ ensureEmbeddingsBound embedder w = .ok () w' ∧ w'.bound ∧
      Accepts models { embedder := embedder, world := w' }

structure Recorded (models : Models F) (s : Session F) : Prop where
  computes : s.embedder.Computes models
  world    : s.world.Recorded models s.embedder

theorem Recorded.oneModel (h : s.Recorded models) : s.OneModel models := by
  intro m d hm hd
  have := (h.world.recorded.of_model hm).right
  rw [hd, Option.some.injEq] at this
  exact this

theorem Recorded.accepts (h : s.Recorded models) : s.Accepts models where
  embedder service he hw texts := by
    rw [he] at hw ⊢
    exact hw.aembed_eq (he ▸ h.world.dimension)
  table hb := by
    obtain ⟨e, he, hw⟩ := Option.bind_eq_some_iff.mp (h.world.bound hb)
    refine ⟨e, he, fun text n hn => ?_⟩
    rw [models.length_embedding]
    exact Option.some.inj (hw.symm.trans hn)

theorem Recorded.reopens (h : s.Recorded models) : s.Reopens models := by
  intro embedder mode width llmFaults hc hn hm
  have hdb : s.world.committed.Recorded models := (committed_eq h.world.saved).symm ▸ h.world.recorded
  have hopen : ∃ w, openDbConnection embedder false
      (.connect s.world.committed mode width noFaults llmFaults) = .ok () w ∧ w.bound = false ∧
        w.pendingWipe = false ∧ w.db.meta? META_MODEL_KEY = some embedder.modelId := by
    cases mode
    case readOnly  => exact ⟨_, openDbConnection_readOnly, rfl, rfl, hm⟩
    case readWrite => exact ⟨_, openDbConnection_eq, rfl, rfl, Db.meta?_ensureMeta.trans hm⟩
  obtain ⟨w, hw, hb, hp, hm'⟩ := hopen
  have hrec : w.Recorded models embedder := by
    have h : (openDbConnection embedder false (.connect s.world.committed mode width noFaults
      llmFaults)).state.Recorded models embedder := openDbConnection_recorded hdb hn
    rwa [hw] at h
  have he := ensure_of_recordedModel hrec hb hp hm'
  have ⟨hrec', hbound⟩ : (ensureEmbeddingsBound embedder).post _ w := ensure_recorded hrec hc
  exact ⟨w, _, hw, EStateM.eq_ok_of_outcome he, hbound he, Recorded.accepts ⟨hc, hrec'⟩⟩

theorem recorded_reopen {embedder : Embedder F} {mode : AccessMode} {wipe : Bool} {width : Option Nat}
    {faults llmFaults : Nat → Bool} (hdb : s.world.committed.Recorded models)
    (hp : Faultless models (.reopen embedder mode wipe width faults llmFaults))
    (h : Step s (.reopen embedder mode wipe width faults llmFaults) r s') : s'.Recorded models := by
  obtain ⟨hc, rfl, hn⟩ := hp
  cases h
  case reopen r ho =>
    subst ho
    exact ⟨hc, openDbConnection_recorded hdb hn⟩

theorem Recorded.step (hi : s.Recorded models) (hp : Faultless models a) (hq : s.Replaces models a)
    (h : Step s a r s') : s'.Recorded models := by
  cases a
  case reopen => exact recorded_reopen ((committed_eq hi.world.saved).symm ▸ hi.world.recorded) hp h
  all_goals cases h
  case syncFile stack force filePath storedPath r he hr =>
    subst hr
    refine ⟨hi.computes, ?_⟩
    have hc : stack.embedder.Computes models := he ▸ hi.computes
    have hs : recording models stack.embedder s.world
        ((stack.syncFile force filePath storedPath).run s.world).state :=
      IndexStack.syncFile_rel fun _ _ => IndexStack.within_recording hc
    exact he ▸ hs (he ▸ hi.world)
  case syncProject stack paths force indexAll n w' he hr =>
    refine ⟨hi.computes, ?_⟩
    have hc : stack.embedder.Computes models := he ▸ hi.computes
    have hq : indexAll → IndexStack.Replaces models stack.embedder s.world := he ▸ hq
    exact he ▸ IndexStack.syncProject_recording hc hq hr (he ▸ hi.world)
  case runSync stack project options result w' he hr =>
    refine ⟨hi.computes, ?_⟩
    have hc : stack.embedder.Computes models := he ▸ hi.computes
    exact he ▸ IndexStack.runSync_recording hc (fun paths w hp hx => he ▸ hq paths w hp hx) hr (he ▸ hi.world)
  case search closer query limit r hr =>
    subst hr
    refine ⟨hi.computes, ?_⟩
    have hs : (searchUnits s.embedder closer query limit).Within (recording models s.embedder) :=
      searchUnits_within (ensure_recording hi.computes) (fun _ _ h => h.aembed)
        fun _ _ hr hl h => h.reads hr hl
    exact hs s.world hi.world

-- As long as no model is recorded that has computed no vector, the recorded model and width belong
-- together, a session with this model can use the index, and no vector is rejected for its width.
theorem oneModel_of_replaces
    (h : Reachable (fun s a _ => Faultless models a ∧ s.Replaces models a) s) :
    s.OneModel models ∧ s.Reopens models ∧ s.Accepts models := by
  have hr : s.Recorded models := by
    refine h.invariant ?_ fun s s' a r hi hp hs => hi.step hp.left hp.right hs
    intro s s' a r hdb ha hp hs
    cases a <;> try exact ha.elim
    case reopen => exact recorded_reopen (hdb ▸ .empty) hp.left hs
  exact ⟨hr.oneModel, hr.reopens, hr.accepts⟩

section Sample

-- The width of a model is the length of its id, and the file has no units.
private def blank (model : String) : IndexStack naturals :=
  Sample.stack model [("/r/a.py", "")] "" (some "/r")

private def narrow : Session naturals where
  embedder := Sample.embedder "m"
  world    := .opened (Sample.embedder "m") .empty false none noFaults

private def indexed : Session naturals :=
  { narrow with world := (((blank "m").syncFile false "/r/a.py" none).run narrow.world).state }

private def wide : Session naturals where
  embedder := Sample.embedder "mm"
  world    := .opened (Sample.embedder "mm") indexed.world.db false none noFaults

private def marked : Session naturals :=
  { wide with world := ((blank "mm").reembedIfDirty true wide.world).state }

private theorem indexed_reachable {P : Session naturals → Request naturals → Reply → Prop}
    (h : ∀ s r, P s (.reopen (Sample.embedder "m") .readWrite false none noFaults noFaults) r)
    (h' : ∀ s r, P s (.syncFile (blank "m") false "/r/a.py" none) r) : Reachable P indexed := by
  refine .step (.start (s := ⟨Sample.embedder "m", .connect .empty .readWrite none noFaults noFaults⟩)
    (a := .reopen (Sample.embedder "m") .readWrite false none noFaults noFaults) rfl trivial (h _ _)
    (.reopen openDbConnection_eq)) (h' _ _) (.syncFile rfl rfl)

private theorem faultless_open {model : String} : Faultless Sample.models
    (.reopen (Sample.embedder model) .readWrite false none noFaults noFaults) :=
  ⟨Sample.embedder_computes, rfl, nofun⟩

-- A service for the embeddings of a model.
private def service (model : String) : OpenAICompatEmbedder naturals where
  apiBase            := ""
  apiKey             := none
  provider           := none
  model              := model
  service request    := .ok <| request.input.map fun text =>
    .dict 0 (some (.vector (Sample.models.embedding model text)))
  normalize          := id
  normalize_length _ := rfl

private theorem service_modelId {model : String} : (service model).modelId = model := by
  simp [OpenAICompatEmbedder.modelId, service]

private theorem service_hasWidth {model : String} :
    (service model).HasWidth (Sample.models.width (service model).modelId) := by
  rintro texts items ⟨⟩ item hi vec hv
  obtain ⟨text, _, rfl⟩ := List.mem_map.mp hi
  cases hv
  rw [service_modelId]
  exact Sample.models.length_embedding ..

private theorem service_computes {model : String} : (service model).toEmbedder.Computes Sample.models := by
  intro dim texts vectors h
  have h : (service model).aembed dim texts = .ok vectors := h
  obtain ⟨items, raw, ⟨⟩, hm, rfl⟩ := OpenAICompatEmbedder.aembed_ok h
  rw [List.map_map] at hm
  have hraw : raw.map Except.ok = (texts.map (Sample.models.embedding model)).map (Except.ok (ε := Exn)) := by
    rw [←hm, List.map_map]
    rfl
  rw [show (service model).toEmbedder.modelId = model from service_modelId,
    ←List.map_injective_iff.mpr Except.ok_injective hraw]
  exact List.map_id _

private def serviced (model : String) : IndexStack naturals :=
  { Sample.stack model [("/r/a.py", "f=1")] "s" none with embedder := (service model).toEmbedder }

-- The next session, in which the whole project is synced with a model.
private def begun (w : World naturals) (model : String) (wipe : Bool) : Session naturals where
  embedder := (serviced model).embedder
  world    := .opened (serviced model).embedder w.committed wipe none noFaults

private def started (w : World naturals) (model : String) (wipe : Bool) : World naturals :=
  ((serviced model).prelude Sample.project Sample.everything (begun w model wipe).world).state

private def synced (w : World naturals) (model : String) (wipe : Bool) : Session naturals where
  embedder := (serviced model).embedder
  world    := Sample.ran (serviced model) ["/r/a.py"] (begun w model wipe).world

-- What the condition says of the requests of a session.
private def Allowed (s : Session naturals) (a : Request naturals) (_ : Reply) : Prop :=
  Faultless Sample.models a ∧ s.Replaces Sample.models a

private theorem allowed_open {s : Session naturals} {model : String} {wipe : Bool} : Allowed s
    (.reopen (serviced model).embedder .readWrite wipe none noFaults noFaults) r :=
  ⟨⟨service_computes, rfl, nofun⟩, trivial⟩

private theorem reachable_begun {s : Session naturals} {model : String} {wipe : Bool}
    (h : Reachable Allowed s) : Reachable Allowed (begun s.world model wipe) :=
  .step h allowed_open (.reopen openDbConnection_eq)

private theorem reachable_synced {w : World naturals} {model : String} {wipe : Bool}
    (h : Reachable Allowed (begun w model wipe))
    (hsel : ((serviced model).prelude Sample.project Sample.everything (begun w model wipe).world).outcome =
      .ok (some ["/r/a.py"]))
    (hre : (IndexStack.reembedIfDirty { serviced model with root := some "/r" } true
      (started w model wipe)).outcome = .ok ())
    (hu : (started w model wipe).dirty → (started w model wipe).db.units.rows.isEmpty = false) :
    Reachable Allowed (synced w model wipe) := by
  obtain ⟨result, hrun⟩ := Sample.runSync_ran hsel hre
  have hf : Faultless Sample.models (.runSync (serviced model) Sample.project Sample.everything) := trivial
  refine .step h ⟨hf, fun paths w' hpre _ hd hrows => ?_⟩ (.runSync rfl hrun)
  obtain rfl : started w model wipe = w' := by rw [started, hpre]; rfl
  exact absurd (hu hd) (by simp [hrows])

private def ofM : Session naturals :=
  synced (.connect .empty .readWrite none noFaults noFaults) "m" false

-- Another model of the same width replaces the vector.
private def ofN : Session naturals :=
  synced ofM.world "n" false

-- The vectors of a model of another width need a wipe.
private def ofMm : Session naturals :=
  synced ofN.world "mm" true

theorem oneModel_of_replaces_sample :
    (started ofM.world "n" false).dirty ∧ ofN.world.db.meta? META_MODEL_KEY = some "n" ∧
      ofN.world.db.vec? "a.py:f" = some (Sample.models.embedding "n" "s") ∧
      (ofN.OneModel Sample.models ∧ ofN.Reopens Sample.models ∧ ofN.Accepts Sample.models) ∧
      ofMm.world.db.meta? META_DIM_KEY = some "2" ∧ ofMm.world.dimension = some 2 ∧
      ofMm.OneModel Sample.models ∧ ofMm.Reopens Sample.models ∧ ∀ texts,
        ofMm.embedder.aembed ofMm.world.dimension texts = ofMm.embedder.aembed none texts := by
  have hm : Reachable Allowed ofM := by
    refine reachable_synced ?_ (by decide +kernel) (by decide +kernel) (by decide +kernel)
    exact .start (s := ⟨Sample.embedder "m", .connect .empty .readWrite none noFaults noFaults⟩)
      (a := .reopen (serviced "m").embedder .readWrite false none noFaults noFaults) rfl trivial allowed_open
      (.reopen openDbConnection_eq)
  have hn : Reachable Allowed ofN :=
    reachable_synced (reachable_begun hm) (by decide +kernel) (by decide +kernel) (by decide +kernel)
  have hmm : Reachable Allowed ofMm :=
    reachable_synced (reachable_begun hn) (by decide +kernel) (by decide +kernel) (by decide +kernel)
  have ⟨hone, hreopens, haccepts⟩ := oneModel_of_replaces hmm
  exact ⟨by decide +kernel, by decide +kernel, by decide +kernel, oneModel_of_replaces hn, by decide +kernel,
    by decide +kernel, hone, hreopens, haccepts.embedder (service "mm") rfl service_hasWidth⟩

-- Another model is recorded in an index that has no units, and its width is not.
theorem not_oneModel : ¬∀ (models : Models naturals) (s : Session naturals),
    Reachable (fun _ a _ => Faultless models a) s → s.OneModel models := by
  intro h
  have hopen : Step indexed (.reopen (Sample.embedder "mm") .readWrite false none noFaults noFaults)
      _ wide := .reopen openDbConnection_eq
  have hre : (blank "mm").reembedIfDirty true wide.world = .ok () marked.world :=
    EStateM.eq_ok_of_outcome (by decide +kernel)
  have hsync : Step wide (.syncProject (blank "mm") [] false true 1) (.ok []) marked :=
    .syncProject rfl (.returned hre ⟨_, .refl, by decide, rfl, rfl⟩)
  have hsecond := (indexed_reachable (P := fun _ a _ => Faultless Sample.models a)
    (fun _ _ => faultless_open) fun _ _ => trivial).step faultless_open hopen
  have hfree : Faultless Sample.models (.syncProject (blank "mm") [] false true 1) := trivial
  have hm := h Sample.models marked (.step hsecond hfree hsync)
  exact absurd (hm "mm" "1" (by decide +kernel) (by decide +kernel)) (by decide)

end Sample
end Session
