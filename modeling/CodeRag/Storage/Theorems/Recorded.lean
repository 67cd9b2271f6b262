import CodeRag.Storage.Theorems.Settle
import CodeRag.Storage.Theorems.Sound
import CodeRag.Storage.Theorems.Transaction

-- The model and the width that an index records, over the operations of sessions without faults.

namespace Db

variable {F : Floats} {db db' : Db F} {models : Models F} {m model : String} {n : Nat} {h : ArraySize n}

-- The width that is recorded is that of the model that is recorded, and that of the table.
def Recorded (models : Models F) (db : Db F) : Prop :=
  db.embeddings = none ∧ db.meta? META_DIM_KEY = none ∧ db.meta? META_MODEL_KEY = none ∨
  ∃ m, db.width? = some (models.width m) ∧ db.meta? META_DIM_KEY = some (toString (models.width m)) ∧
    db.meta? META_MODEL_KEY = some m

theorem width_isSome (hw : db.width? = some n) : db.embeddings.isSome := by
  obtain ⟨e, he, _⟩ := Option.bind_eq_some_iff.mp hw
  simp [he]

namespace Recorded

theorem empty : (Db.empty : Db F).Recorded models :=
  .inl ⟨rfl, rfl, rfl⟩

theorem congr (hr : db.Recorded models) (hb : db.SameBinding db') : db'.Recorded models := by
  unfold Recorded
  rw [hb.width, hb.dim, hb.model]
  refine hr.imp_left fun ⟨he, hk⟩ => ⟨?_, hk⟩
  have := hb.embeddings
  rw [he] at this
  exact Option.not_isSome_iff_eq_none.mp (by rw [this]; exact Bool.false_ne_true)

-- A recorded model has a table.
theorem of_model (hr : db.Recorded models) (hm : db.meta? META_MODEL_KEY = some m) :
    db.width? = some (models.width m) ∧ db.meta? META_DIM_KEY = some (toString (models.width m)) := by
  obtain ⟨_, _, hn⟩ | ⟨m', hw, hd, hm'⟩ := hr
  case inl => rw [hn] at hm; cases hm
  case inr =>
    rw [hm', Option.some.injEq] at hm
    subst hm
    exact ⟨hw, hd⟩

theorem inferMeta {wiped : Bool} (hr : db.Recorded models) : db.inferMeta wiped = db := by
  unfold Db.inferMeta
  obtain ⟨he, _⟩ | ⟨m, _, hd, hm⟩ := hr
  · simp [he]
  · simp [lacksMeta, hd, hm]

-- The width that an embedder finds is that of its model.
theorem reaches {embedder : Embedder F} {wiped : Bool} {d : Option Nat} (hr : db.Recorded models)
    (hc : embedder.Computes models) (hd : ∀ n ∈ d, n = models.width embedder.modelId)
    (h : Conn.Reaches embedder (db.bindPlan embedder.modelId wiped) d n) :
    n = models.width embedder.modelId := by
  obtain hd' | hd' := h.dimension
  case inr => exact hd n hd'
  have hprobe : db.bindPlan embedder.modelId wiped = .probe → n = models.width embedder.modelId := by
    intro hp
    obtain ⟨v, vs, ha, rfl⟩ := h.probe hp hd'
    have hv := hc _ _ _ ha
    rw [List.map_singleton, List.cons.injEq] at hv
    rw [hv.left, models.length_embedding]
  cases hw : wiped || db.embeddings.isNone
  case true  => exact hprobe (by rw [bindPlan, if_pos hw])
  case false =>
    obtain ⟨he, _⟩ | ⟨m, hwidth, hdim, hm⟩ := hr
    case inl => simp [he] at hw
    have hplan : db.bindPlan embedder.modelId wiped =
        if m = embedder.modelId then .target (models.width m) else .probe := by
      have hp := Conn.parsePositiveDim_toString (width_size hwidth)
      simp only [bindPlan, hw, hdim, hm, hwidth, hp, Bool.false_eq_true, if_false]
      simp
    split at hplan
    case isTrue hk  => rw [h.target _ hplan, hk]
    case isFalse hk => exact hprobe hplan

theorem finishBind (hr : db.Recorded models) (hi : db.indexMeta.isSome) (hn : n = models.width model)
    (hw : db.width?.isSome → db.width? = some n) :
    (db.finishBind model n h).width? = some n ∧ (db.finishBind model n h).Recorded models := by
  have hkeys : ∀ k, (db.finishBind model n h).meta? k = _ := fun k => meta?_finishBind hi
  have hwidth : (db.finishBind model n h).width? = some n := by
    unfold width?
    rw [finishBind_embeddings]
    cases he : db.embeddings
    case none   => rfl
    case some e =>
      obtain ⟨he', _⟩ | ⟨m, hm, _⟩ := hr
      case inl => rw [he] at he'; cases he'
      rw [←hw (by rw [hm]; rfl), width?, he]
      rfl
  refine ⟨hwidth, .inr ?_⟩
  rw [hkeys, hkeys, if_pos rfl, if_neg (by decide), if_pos rfl, hwidth]
  obtain ⟨_, _, hm⟩ | ⟨m, hm, _, hm'⟩ := hr
  case inl => exact ⟨model, by rw [hn], by rw [hn], by rw [hm]; rfl⟩
  case inr =>
    have he : models.width m = n := Option.some.inj (hm.symm.trans (hw (by rw [hm]; rfl)))
    exact ⟨m, by rw [he], by rw [he], by rw [hm']; rfl⟩

end Recorded
end Db

namespace World

open Conn EStateM

variable {F : Floats} {w w' : World F} {models : Models F} {embedder : Embedder F}

-- A session without faults on an index that records the width of the model that it records.
structure Recorded (models : Models F) (embedder : Embedder F) (w : World F) : Prop where
  faultFree : w.FaultFree
  saved     : w.saved = none
  indexMeta : w.mode = .readWrite → w.db.indexMeta.isSome
  recorded  : w.db.Recorded models
  dimension : ∀ n ∈ w.dimension, n = models.width embedder.modelId
  dirty     : w.dirty → w.db.embeddings.isSome
  bound     : w.bound → w.db.width? = some (models.width embedder.modelId)

namespace Recorded

theorem congr (h : w.Recorded models embedder) (hf : w'.FaultFree) (hs : w'.saved = none)
    (hm : w'.mode = w.mode) (hi : w'.db.indexMeta.isSome = w.db.indexMeta.isSome)
    (hb : w.db.SameBinding w'.db) (hn : ∀ n ∈ w'.dimension, n = models.width embedder.modelId)
    (hd : w'.dirty → w.dirty) (hx : w'.bound → w.bound) : w'.Recorded models embedder where
  faultFree   := hf
  saved       := hs
  indexMeta h' := hi ▸ h.indexMeta (hm ▸ h')
  recorded    := h.recorded.congr hb
  dimension   := hn
  dirty h'    := hb.embeddings ▸ h.dirty (hd h')
  bound h'    := hb.width ▸ h.bound (hx h')

-- The rows may change.
theorem frame {f : Nat → Bool} {db : Db F} (h : w.Recorded models embedder)
    (hw : w' = { w with db := db, faults := f }) (hf : w'.FaultFree) (hi : db.indexMeta = w.db.indexMeta)
    (he : db.embeddings.isSome = w.db.embeddings.isSome) (hwidth : db.width? = w.db.width?) :
    w'.Recorded models embedder := by
  have hk : ∀ k, db.meta? k = w.db.meta? k := fun k => by simp only [Db.meta?, hi]
  subst hw
  exact h.congr hf h.saved rfl (by rw [hi]) ⟨he, hwidth, hk _, hk _⟩ h.dimension id id

theorem reads (h : w.Recorded models embedder) (hr : w.Reads w') (hl : later w w') :
    w'.Recorded models embedder := by
  obtain ⟨f, rfl⟩ := hr
  exact h.frame rfl (h.faultFree.later hl) rfl rfl rfl

theorem ready (h : w.Recorded models embedder) (hm : w.mode = .readWrite) : w.Ready :=
  ⟨h.faultFree, hm, h.indexMeta hm⟩

theorem aembed {texts : List String} (h : w.Recorded models embedder) :
    (aembed embedder texts w).state.Recorded models embedder := by
  have ⟨f, hw⟩ := (aembed_post : (Conn.aembed embedder texts).post _ w).left
  have hf := h.faultFree.later ((aembed_built : Built (Conn.aembed embedder texts)).later w)
  rw [hw] at hf ⊢
  exact h.congr hf h.saved rfl rfl .refl h.dimension id id

end Recorded
end World

namespace Conn

open EStateM World

variable {F : Floats} {w : World F} {models : Models F} {embedder : Embedder F} {n : Nat}

private theorem ensure_of_noTable (hf : w.FaultFree) (hm : w.mode = .readOnly) (hb : w.bound = false)
    (he : w.db.embeddings = none) : ∃ e, ensureEmbeddingsBound embedder w = .error e w := by
  have hq : requireTable w = .error (.storage EMBEDDINGS_MISSING_MSG (some .embeddingsMissing)) w := by
    unfold requireTable
    rw [get_bind, if_neg (by rw [hm]; exact AccessMode.noConfusion),
      bind_of_ok (embeddingsTableExists_of_faultFree hf), he]
    rfl
  unfold ensureEmbeddingsBound bindEmbeddings
  rw [get_bind, if_neg (by simp [hb])]
  exact ⟨_, bind_of_error (bind_of_error hq)⟩

-- Binding the embedder does not separate the recorded width from the recorded model.
theorem ensure_recorded (h : w.Recorded models embedder) (hc : embedder.Computes models) :
    (ensureEmbeddingsBound embedder).post
      (fun r w' => w'.Recorded models embedder ∧ (r = .ok () → w'.bound)) w := by
  cases hb : w.bound
  case true =>
    have he : ensureEmbeddingsBound embedder w = .ok () w := ensure_of_bound hb
    exact post_of_ok he ⟨h, fun _ => hb⟩
  case false =>
    have hprobed : ∀ d k, (∀ n ∈ d, n = models.width embedder.modelId) →
        (w.probed d k).Recorded models embedder := fun d k hd =>
      h.congr h.faultFree h.saved rfl rfl .refl hd id id
    cases hm : w.mode
    case readWrite =>
      have hready := h.ready hm
      have hinf : inferredWorld w = w := by
        unfold inferredWorld
        rw [h.recorded.inferMeta]
      obtain ⟨e, k, he⟩ | ⟨n, k, hr, ho⟩ := ensureEmbeddingsBound_of_ready embedder hb
      case inl => exact post_of_error (he w hready .refl) ⟨hinf.symm ▸ hprobed _ _ h.dimension, not_ok⟩
      case inr =>
        have hn := h.recorded.reaches hc h.dimension hr
        have hd : ∀ n' ∈ some n, n' = models.width embedder.modelId := by rintro _ ⟨⟩; exact hn
        have ho := ho w hready .refl
        split at ho
        case isFalse   => exact post_of_error ho ⟨hinf.symm ▸ hprobed _ _ hd, not_ok⟩
        case isTrue ht =>
          obtain ⟨hwidth, hrec⟩ := h.recorded.finishBind (h := ht.size) hready.indexMeta hn ht.width
          refine post_of_ok ho ⟨?_, fun _ => rfl⟩
          rw [hinf]
          exact {
            faultFree   := h.faultFree
            saved       := h.saved
            indexMeta _ := Db.finishBind_isSome hready.indexMeta
            recorded    := hrec
            dimension   := hd
            dirty _     := Db.width_isSome hwidth
            bound _     := hn ▸ hwidth }
    case readOnly =>
      cases he : w.db.embeddings
      case none =>
        obtain ⟨e, hx⟩ : ∃ e, ensureEmbeddingsBound embedder w = .error e w :=
          ensure_of_noTable h.faultFree hm hb he
        exact post_of_error hx ⟨h, not_ok⟩
      case some e =>
        have hstart : startWorld w = w := by
          unfold startWorld planDb
          rw [if_pos (by simpa using hm)]
        have heq : ensureEmbeddingsBound embedder w = _ :=
          ensure_eq_of_faultFree h.faultFree h.ready (fun _ => by simp [he]) hb
        rw [hstart] at heq
        obtain ⟨e, k, hx⟩ | ⟨n, k, hr, hx⟩ :=
          runPlan_of_faultFree embedder (sessionPlan embedder w) (d := w.dimension)
        case inl =>
          have hx := heq.trans (bind_of_error (hx w h.faultFree rfl))
          exact post_of_error hx ⟨hprobed _ _ h.dimension, not_ok⟩
        case inr =>
          have hn := h.recorded.reaches hc h.dimension hr
          have hd : ∀ n' ∈ some n, n' = models.width embedder.modelId := by rintro _ ⟨⟩; exact hn
          have hp := hprobed (some n) k hd
          have hx := heq.trans (bind_of_ok (hx w h.faultFree rfl))
          have hcreate := createTableAndSyncMeta_of_readOnly (n := n) embedder hp.faultFree hm
          split at hcreate
          case isTrue  => exact post_of_error (hx.trans (bind_of_error hcreate)) ⟨hp, not_ok⟩
          case isFalse hw =>
            refine post_of_ok (hx.trans (bind_of_ok hcreate)) ⟨?_, fun _ => rfl⟩
            have hwidth : w.db.width? = some n := by
              obtain ⟨he', _⟩ | ⟨m, hm', _⟩ := h.recorded
              case inl => rw [he] at he'; cases he'
              case inr =>
                rw [probed_db, hm'] at hw
                rw [hm']
                simpa using hw
            exact { hp with bound := fun _ => hn ▸ hwidth }

-- A session keeps the recorded width that of the recorded model.
abbrev recording (models : Models F) (embedder : Embedder F) : Rely (World F) :=
  .keeps (World.Recorded models embedder)

variable {i k v path : String} {ids paths : List String} {u : KnowledgeUnit} {old new lib : String}
variable {vector : Option (List F)}

theorem ensure_recording (hc : embedder.Computes models) :
    (ensureEmbeddingsBound embedder).Within (recording models embedder) :=
  fun _ h => (ensure_recorded h hc).left

theorem hasEmbedding_recording (hc : embedder.Computes models) :
    (hasEmbedding embedder i).Within (recording models embedder) :=
  .bind (ensure_recording hc) fun _ w h => h.reads select_post.left (select_built.later w)

theorem upsertUnit_recording (hc : embedder.Computes models) :
    (upsertUnit embedder u vector).Within (recording models embedder) := by
  intro w h
  obtain ⟨w₁, hu⟩ := (upsertUnit_post : (upsertUnit embedder u vector).post _ w)
  have h₁ : w₁.Recorded models embedder := by
    rw [hu.start]
    split
    · exact ensure_recording hc w h
    · exact h
  obtain ⟨f, hw⟩ := hu.frame
  exact h₁.frame hw (h.faultFree.later (upsertUnit_built.later w)) hu.stores.indexMeta hu.stores.isSome hu.stores.width

theorem deleteStaleUnits_recording (hc : embedder.Computes models) :
    (deleteStaleUnits embedder path ids).Within (recording models embedder) := by
  intro w h
  obtain ⟨w₁, f, hs, _, hw, hd, _⟩ :=
    (deleteStaleUnits_post : (deleteStaleUnits embedder path ids).post _ w)
  have h₁ : w₁.Recorded models embedder := hs ▸ ensure_recording hc w h
  exact h₁.frame hw (h.faultFree.later (deleteStaleUnits_built.later w)) hd.indexMeta hd.isSome hd.width

-- A statement that leaves the table of the vectors and the keys that describe it alone.
theorem execute_recording {f : Db F → Except Exn (Db F)} (h : ∀ db db', f db = .ok db' →
    db.SameBinding db' ∧ db'.indexMeta.isSome = db.indexMeta.isSome) :
    (execute f).Within (recording models embedder) := by
  intro w hw
  have hx : (execute f).post _ w := execute_post
  have hf : (execute f w).state.FaultFree := hw.faultFree.later (execute_built.later w)
  obtain ⟨hr, _⟩ | ⟨db, fs, hdb, _, he, _⟩ := hx
  case inl => exact hw.reads hr (execute_built.later w)
  case inr =>
    rw [he] at hf ⊢
    have ⟨hb, hi⟩ := h _ _ hdb
    exact hw.congr hf hw.saved rfl hi hb hw.dimension id id

theorem setDependencyPath_recording :
    (setDependencyPath lib path).Within (recording models embedder) :=
  execute_recording fun _ _ h => by cases h; exact ⟨⟨rfl, rfl, rfl, rfl⟩, rfl⟩

theorem markPathsMigrated_recording : markPathsMigrated.Within (recording models embedder) := by
  unfold markPathsMigrated metaSet
  refine execute_recording fun db db' h => ?_
  split at h <;> cases h
  case isTrue hi =>
    refine ⟨⟨rfl, rfl, ?_, ?_⟩, Db.setMeta_isSome⟩ <;> rw [Db.meta?_setMeta hi, if_neg (by decide)]

-- The table and the keys that describe it are the same.
def sameLabel : Rely (Db F) where
  rel db db' := db'.embeddings.isSome = db.embeddings.isSome ∧ db'.width? = db.width? ∧
    db'.indexMeta = db.indexMeta
  refl _     := ⟨rfl, rfl, rfl⟩
  trans h h' := ⟨h'.left.trans h.left, h'.right.left.trans h.right.left, h'.right.right.trans h.right.right⟩

private theorem transaction_recording {body : Conn F Unit} (hb : Built body) (ht : body.Within tabular)
    (hl : body.Within (sameLabel.comap World.db)) :
    (transaction body).Within (recording models embedder) := by
  intro w h
  obtain ⟨db, ⟨he, hw, hi⟩, hx⟩ := transaction_rel h.faultFree h.saved hb ht hl
  exact h.frame hx (hx ▸ h.faultFree) hi he hw

private theorem deleteVectors_sameLabel {p : Db F → String → Bool} :
    (deleteVectors p).Within (sameLabel.comap World.db) := by
  refine execute_rel fun db db' h => ?_
  split at h <;> cases h
  refine ⟨by simp [Db.deleteVectors], ?_, rfl⟩
  unfold Db.width? Db.deleteVectors
  cases db.embeddings <;> rfl

private theorem renameVectors_sameLabel {f : String → String} :
    (renameVectors (F := F) f).Within (sameLabel.comap World.db) := by
  refine execute_rel fun db db' h => ?_
  cases he : db.embeddings <;> rw [he] at h
  case none   => cases h
  case some e =>
    cases hr : e.rename f <;> simp only [hr] at h <;> cases h
    case some e' =>
      refine ⟨by rw [he]; rfl, ?_, rfl⟩
      unfold Db.width?
      rw [he]
      exact (Embeddings.rename_eq_some_iff.mp hr).right

theorem commitRewrittenPath_recording :
    (commitRewrittenPath old new).Within (recording models embedder) := by
  refine transaction_recording (.bind select_built fun _ => rewritePathPrefix_built)
    (.bind select_tabular fun _ => rewritePathPrefix_tabular) (.bind select_rel fun b => ?_)
  refine .bind (execute_rel fun db db' h => ?_) fun _ => .bind ?_ fun _ => execute_rel fun db db' h => ?_
  · split at h <;> cases h
    exact ⟨rfl, rfl, rfl⟩
  · cases b
    case false => exact .pure
    case true  => exact renameVectors_sameLabel
  · split at h <;> cases h
    exact ⟨rfl, rfl, rfl⟩

theorem deleteAbsolutePaths_recording :
    (deleteAbsolutePaths paths).Within (recording models embedder) := by
  refine transaction_recording (.bind select_built fun _ => .forM (fun _ => deletePath_built) _)
    (.bind select_tabular fun b => .forM (fun _ => deletePath_tabular (b := b)) _)
    (.bind select_rel fun b => .forM (fun path => ?_) _)
  refine .bind ?_ fun _ => .bind (execute_rel fun _ _ h => ?_) fun _ => execute_rel fun _ _ h => ?_
  · cases b
    case false => exact .pure
    case true  => exact deleteVectors_sameLabel
  · cases h
    exact ⟨rfl, rfl, rfl⟩
  · cases h
    exact ⟨rfl, rfl, rfl⟩

-- At the end of a new embedding, the table has the width of the model that is recorded.
theorem markEmbeddingModelSynced_recorded (h : w.Recorded models embedder)
    (hw : w.db.width? = some (models.width embedder.modelId)) :
    (markEmbeddingModelSynced embedder w).state.Recorded models embedder := by
  unfold markEmbeddingModelSynced
  cases hm : w.mode
  case readOnly =>
    have hx : ∃ e, metaSet META_MODEL_KEY embedder.modelId w = .error e w := by
      unfold metaSet execute
      rw [statement_of_faultFree h.faultFree, hm]
      exact ⟨_, rfl⟩
    obtain ⟨e, hx⟩ := hx
    rw [bind_of_error hx]
    exact h
  case readWrite =>
    have hi := h.indexMeta hm
    have hr : (w.db.setMeta META_MODEL_KEY embedder.modelId).Recorded models := by
      refine .inr ⟨embedder.modelId, hw, ?_, ?_⟩
      · rw [Db.meta?_setMeta hi, if_neg (by decide)]
        obtain ⟨he, _⟩ | ⟨m, hm', hd, _⟩ := h.recorded
        · have := Db.width_isSome hw
          rw [he] at this
          cases this
        · rw [hd, Option.some.inj (hm'.symm.trans hw)]
      · rw [Db.meta?_setMeta hi, if_pos rfl]
    rw [bind_of_ok (metaSet_of_ready (h.ready hm))]
    exact {
      faultFree   := h.faultFree
      saved       := h.saved
      indexMeta _ := Db.setMeta_isSome.trans hi
      recorded    := hr
      dimension   := h.dimension
      dirty       := nofun
      bound       := h.bound }

theorem openDbConnection_readOnly {db : Db F} {d : Option Nat} {llmFaults : Nat → Bool} :
    openDbConnection embedder false (.connect db .readOnly d noFaults llmFaults) =
      .ok () { World.connect db .readOnly d noFaults llmFaults with
        dirty := db.isDirty embedder.modelId } := by
  obtain ⟨units, embeddings, relations, dependencies, indexMeta⟩ := db
  cases embeddings
  · rfl
  · cases indexMeta <;> rfl

-- Opening an index keeps the keys or drops them together with the table.
theorem openDbConnection_recorded {db : Db F} {mode : AccessMode} {wipe : Bool} {d : Option Nat}
    {llmFaults : Nat → Bool} (h : db.Recorded models)
    (hd : ∀ n ∈ d, n = models.width embedder.modelId) :
    (openDbConnection embedder wipe (.connect db mode d noFaults llmFaults)).state.Recorded models
      embedder := by
  cases mode
  case readOnly =>
    cases wipe
    case true => exact ⟨rfl, rfl, nofun, h, hd, nofun, nofun⟩
    case false =>
      rw [openDbConnection_readOnly]
      exact ⟨rfl, rfl, nofun, h, hd, fun hx => (Bool.and_eq_true_iff.mp hx).left, nofun⟩
  case readWrite =>
    rw [openDbConnection_eq]
    cases wipe
    case false =>
      exact ⟨rfl, rfl, fun _ => rfl, h.congr ⟨rfl, rfl, Db.meta?_ensureMeta, Db.meta?_ensureMeta⟩, hd,
        fun hx => (Bool.and_eq_true_iff.mp hx).left, nofun⟩
    case true =>
      refine ⟨rfl, rfl, fun _ => rfl, .inl ⟨rfl, ?_, ?_⟩, hd, nofun, nofun⟩
      · exact Db.meta?_wipe.trans (if_pos (by simp))
      · exact Db.meta?_wipe.trans (if_pos (by simp))

-- A new session with the recorded model binds its embedder to the recorded width.
theorem ensure_of_recordedModel (h : w.Recorded models embedder)
    (hb : w.bound = false) (hp : w.pendingWipe = false)
    (hm : w.db.meta? META_MODEL_KEY = some embedder.modelId) :
    (ensureEmbeddingsBound embedder w).outcome = .ok () := by
  obtain ⟨hwidth, hdim⟩ := h.recorded.of_model hm
  have hsize := Db.width_size hwidth
  have he := Db.width_isSome hwidth
  have hplan : sessionPlan embedder w = .target (models.width embedder.modelId) := by
    have hr := parsePositiveDim_toString hsize
    have hn : w.db.embeddings.isNone = false := Option.isNone_eq_false_iff.mpr he
    simp only [sessionPlan, Db.bindPlan, hp, hn, hdim, hm, hwidth, hr, Bool.or_self, Bool.false_eq_true,
      if_false]
    simp
  have hreach : Reaches embedder (sessionPlan embedder w) w.dimension (models.width embedder.modelId) := by
    rw [hplan]
    refine ⟨fun _ => BindPlan.noConfusion, hsize.pos, ?_, fun t ht => by cases ht; rfl, BindPlan.noConfusion⟩
    cases hd : w.dimension
    case none   => exact .inl rfl
    case some n => exact .inr (by rw [h.dimension n hd])
  have hstart : startWorld w = w := by
    unfold startWorld planDb
    split
    · rfl
    · rw [h.recorded.inferMeta]
  have heq : ensureEmbeddingsBound embedder w = _ :=
    ensure_eq_of_faultFree h.faultFree h.ready (fun _ => he) hb
  rw [hstart] at heq
  obtain ⟨k, hk⟩ := runPlan_of_reaches hreach h.faultFree (.inl rfl)
  have hno : ¬(w.db.width?.isSome ∧ w.db.width? ≠ some (models.width embedder.modelId)) := by simp [hwidth]
  rw [heq, bind_of_ok hk]
  cases hmode : w.mode
  case readOnly =>
    have hx := createTableAndSyncMeta_of_readOnly (n := models.width embedder.modelId) embedder
      (w := w.probed (some (models.width embedder.modelId)) k) h.faultFree hmode
    rw [probed_db, if_neg hno] at hx
    rw [bind_of_ok hx]
    rfl
  case readWrite =>
    have hx := createTableAndSyncMeta_of_ready embedder
      (w := w.probed (some (models.width embedder.modelId)) k) ⟨h.faultFree, hmode, h.indexMeta hmode⟩
      hsize.pos
    rw [probed_db, dif_pos ⟨hsize, fun _ => hwidth⟩] at hx
    rw [bind_of_ok hx]
    rfl

end Conn
