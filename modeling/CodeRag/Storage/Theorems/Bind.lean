import CodeRag.Storage.Bind

-- What binding an embedder may change, whichever of its statements fail.

namespace Db

variable {F : Floats} {db db' : Db F} {i k m v : String}

-- `db'` differs from `db` by what binding the embedder of model `m` may do: it creates the table of
-- the vectors and writes the two keys that describe it. The model is only written when one of the two
-- keys was missing.
structure Binds (m : String) (db db' : Db F) : Prop where
  units        : db'.units = db.units
  relations    : db'.relations = db.relations
  dependencies : db'.dependencies = db.dependencies
  embeddings   : db'.embeddings = db.embeddings ∨
    db.embeddings = none ∧ ∃ n h, db'.embeddings = some (.create n h)
  indexMeta    : db'.indexMeta.isSome = db.indexMeta.isSome
  other        : ∀ k, k ≠ META_DIM_KEY → k ≠ META_MODEL_KEY → db'.meta? k = db.meta? k
  dim          : (db.meta? META_DIM_KEY).isSome → (db'.meta? META_DIM_KEY).isSome
  model        : db'.meta? META_MODEL_KEY = db.meta? META_MODEL_KEY ∨
    (db'.embeddings.isSome ∧ (db'.meta? META_DIM_KEY).isSome) ∧
      (db'.meta? META_MODEL_KEY = some LOCAL_EMBEDDING_MODEL_ID ∧ db.embeddings.isSome ∧
          (db.meta? META_DIM_KEY = none ∨ db.meta? META_MODEL_KEY = none) ∨
        db'.meta? META_MODEL_KEY = some m ∧ db.meta? META_MODEL_KEY = none)

namespace Binds

theorem refl : Binds m db db where
  units        := rfl
  relations    := rfl
  dependencies := rfl
  embeddings   := .inl rfl
  indexMeta    := rfl
  other        := fun _ _ _ => rfl
  dim          := id
  model        := .inl rfl

theorem vec? (h : Binds m db db') : db'.vec? i = db.vec? i := by
  obtain he | ⟨hn, n, hp, he⟩ := h.embeddings
  case inl => simp [Db.vec?, he]
  case inr => simp [Db.vec?, hn, he, Embeddings.create]

theorem isSome_embeddings (h : Binds m db db') (hs : db.embeddings.isSome) :
    db'.embeddings = db.embeddings := by
  refine h.embeddings.resolve_right fun ⟨hn, _⟩ => ?_
  simp [hn] at hs

theorem setDim (h : Binds m db db') (hm : db'.indexMeta.isSome) :
    Binds m db (db'.setMeta META_DIM_KEY v) where
  units        := h.units
  relations    := h.relations
  dependencies := h.dependencies
  embeddings   := h.embeddings
  indexMeta    := by simpa using h.indexMeta
  other k hk hk' := by rw [meta?_setMeta hm, if_neg hk]; exact h.other k hk hk'
  dim _        := by rw [meta?_setMeta hm, if_pos rfl]; rfl
  model        := by
    rw [meta?_setMeta hm, meta?_setMeta hm, if_neg (by decide), if_pos rfl]
    exact h.model.imp_right fun ⟨⟨he, _⟩, hn⟩ => ⟨⟨he, rfl⟩, hn⟩

theorem setModel (h : Binds m db db') (hm : db'.indexMeta.isSome) (he : db'.embeddings.isSome)
    (hd : (db'.meta? META_DIM_KEY).isSome)
    (hn : v = LOCAL_EMBEDDING_MODEL_ID ∧ db.embeddings.isSome ∧
      (db.meta? META_DIM_KEY = none ∨ db.meta? META_MODEL_KEY = none) ∨
        v = m ∧ db.meta? META_MODEL_KEY = none) :
    Binds m db (db'.setMeta META_MODEL_KEY v) where
  units        := h.units
  relations    := h.relations
  dependencies := h.dependencies
  embeddings   := h.embeddings
  indexMeta    := by simpa using h.indexMeta
  other k hk hk' := by rw [meta?_setMeta hm, if_neg hk']; exact h.other k hk hk'
  dim hs       := by rw [meta?_setMeta hm, if_neg (by decide)]; exact h.dim hs
  model        := by
    rw [meta?_setMeta hm, meta?_setMeta hm, if_pos rfl, if_neg (by decide)]
    refine .inr ⟨⟨he, hd⟩, hn.imp ?_ ?_⟩
    · exact fun ⟨hv, hn⟩ => ⟨by rw [hv], hn⟩
    · exact fun ⟨hv, hn⟩ => ⟨by rw [hv], hn⟩

theorem create (h : Binds m db db') (hn : db'.embeddings = none) (n : Nat)
    (hp : ArraySize n) :
    Binds m db { db' with embeddings := some (.create n hp) } where
  units        := h.units
  relations    := h.relations
  dependencies := h.dependencies
  embeddings   := by
    obtain he | ⟨_, n', hp', he⟩ := h.embeddings
    case inl => exact .inr ⟨he ▸ hn, n, hp, rfl⟩
    case inr => simp [he] at hn
  indexMeta    := h.indexMeta
  other        := h.other
  dim          := h.dim
  model        := h.model.imp_right fun ⟨⟨_, hd⟩, hn⟩ => ⟨⟨rfl, hd⟩, hn⟩

end Binds
end Db

namespace World

variable {F : Floats} {w w' w'' : World F} {m : String}

-- Reading a table uses up a statement and changes nothing else.
def Reads (w w' : World F) : Prop :=
  ∃ f, w' = { w with faults := f }

-- Finding the width of an embedder does not touch the tables.
def Probes (w w' : World F) : Prop :=
  ∃ f d n, w' = { w with
    faults    := f
    dimension := d
    calls     := w.calls ++ List.replicate n (.aembed [EMBEDDING_PROBE_TEXT]) }

-- What binding an embedder may change.
structure Binds (m : String) (w w' : World F) : Prop where
  db        : w.db.Binds m w'.db
  saved     : w'.saved = w.saved
  mode      : w'.mode = w.mode
  dirty     : w'.dirty = w.dirty
  llmFaults : w'.llmFaults = w.llmFaults
  bound     : w.bound → w'.bound
  calls     : ∃ n, w'.calls = w.calls ++ List.replicate n (.aembed [EMBEDDING_PROBE_TEXT])

theorem Reads.refl : w.Reads w :=
  ⟨_, rfl⟩

theorem Reads.tick : w.Reads w.tick :=
  ⟨_, rfl⟩

theorem Reads.trans (h : w.Reads w') (h' : w'.Reads w'') : w.Reads w'' := by
  obtain ⟨f, rfl⟩ := h
  obtain ⟨f', rfl⟩ := h'
  exact ⟨f', rfl⟩

theorem Binds.refl : w.Binds m w where
  db        := .refl
  saved     := rfl
  mode      := rfl
  dirty     := rfl
  llmFaults := rfl
  bound     := id
  calls     := ⟨0, by simp⟩

theorem Binds.reads (h : w.Binds m w') (hr : w'.Reads w'') : w.Binds m w'' := by
  obtain ⟨f, rfl⟩ := hr
  exact { h with }

theorem Reads.binds (h : w.Reads w') : w.Binds m w' :=
  Binds.refl.reads h

theorem Probes.refl : w.Probes w :=
  ⟨w.faults, w.dimension, 0, by simp⟩

theorem Binds.probes (h : w.Binds m w') (hp : w'.Probes w'') : w.Binds m w'' := by
  obtain ⟨f, d, n, rfl⟩ := hp
  obtain ⟨k, hk⟩ := h.calls
  exact { h with calls := ⟨k + n, by rw [hk, List.append_assoc, List.replicate_append_replicate]⟩ }

end World

namespace Conn

open EStateM World

variable {F : Floats} {α : Type} {w w₀ : World F} {embedder : Embedder F}

theorem select_post {f : Db F → α} :
    (select f).post (fun r w' => w.Reads w' ∧ ∀ a, r = .ok a → a = f w.db) w := by
  unfold select statement EStateM.post
  dsimp only
  split
  · exact ⟨.tick, fun a h => by cases h⟩
  · exact ⟨.tick, fun a h => by cases h; rfl⟩

theorem execute_post {f : Db F → Except Exn (Db F)} :
    (execute f).post (fun r w' => (w.Reads w' ∧ ∃ e, r = .error e) ∨
      ∃ db fs, f w.db = .ok db ∧ w.mode = .readWrite ∧ w' = { w with db := db, faults := fs } ∧
        r = .ok ()) w := by
  unfold execute statement EStateM.post
  dsimp only
  split
  case isTrue => exact .inl ⟨.tick, _, rfl⟩
  case isFalse =>
    rw [tick_mode, tick_db]
    cases hm : w.mode
    case readOnly => exact .inl ⟨.tick, _, rfl⟩
    case readWrite =>
      cases hf : f w.db
      case error => exact .inl ⟨.tick, _, rfl⟩
      case ok    => exact .inr ⟨_, _, rfl, rfl, rfl, rfl⟩

theorem schemaVecWidth_post : schemaVecWidth.post
    (fun r w' => w.Reads w' ∧ ∀ a, r = .ok a → a = w.db.width?) w := by
  unfold schemaVecWidth statement EStateM.post
  dsimp only
  split
  case isTrue => exact ⟨.tick, nofun⟩
  case isFalse =>
    rw [tick_db]
    cases he : w.db.embeddings
    case none   => exact ⟨.tick, nofun⟩
    case some e => exact ⟨.tick, fun a h => by cases h; simp [Db.width?, he]⟩

theorem metaGet_post {k : String} :
    (metaGet k).post (fun r w' => w.Reads w' ∧ ∀ a, r = .ok a → a = w.db.meta? k) w := by
  refine post_bind select_post (fun b w₁ ⟨hr, hb⟩ => ?_) fun e w₁ ⟨hr, _⟩ => ⟨hr, nofun⟩
  obtain ⟨f, rfl⟩ := hr
  cases b <;> have hb := hb _ rfl
  case true =>
    rw [if_pos rfl]
    exact post_mono select_post fun r w₂ ⟨hr, ha⟩ => ⟨.trans ⟨_, rfl⟩ hr, ha⟩
  case false =>
    refine post_pure ⟨⟨_, rfl⟩, fun a ha => ?_⟩
    cases ha
    have hn : w.db.indexMeta = none := by simpa using hb.symm
    simp [Db.meta?, hn]

theorem metaSet_post {k v : String} :
    (metaSet k v).post (fun r w' => (w.Reads w' ∧ ∃ e, r = .error e) ∨
      ∃ fs, w.db.indexMeta.isSome ∧ w' = { w with db := w.db.setMeta k v, faults := fs } ∧
        r = .ok ()) w := by
  refine post_mono execute_post fun r w' h => ?_
  refine h.imp_right fun ⟨db, fs, hf, _, hw, hr⟩ => ?_
  split at hf <;> cases hf
  exact ⟨fs, ‹_›, hw, hr⟩

theorem dimension_post : dimension.post (fun _ w' => w' = w) w := by
  unfold dimension EStateM.post
  dsimp only
  split <;> rfl

theorem bindDimension_post {n : Nat} :
    (bindDimension n).post (fun _ w' => ∃ d, w' = { w with dimension := d }) w := by
  unfold bindDimension EStateM.post
  dsimp only
  split
  · exact ⟨_, rfl⟩
  · cases w.dimension
    case none => exact ⟨_, rfl⟩
    case some =>
      dsimp only
      split <;> exact ⟨_, rfl⟩

theorem aembed_post {texts : List String} :
    (aembed embedder texts).post (fun r w' =>
      (∃ f, w' = { w with faults := f, calls := w.calls ++ [.aembed texts] }) ∧
        ∀ vs, r = .ok vs → embedder.aembed w.dimension texts = .ok vs) w := by
  unfold aembed EStateM.post
  dsimp only
  split
  · exact ⟨⟨_, rfl⟩, nofun⟩
  · cases embedder.aembed w.dimension texts
    · exact ⟨⟨_, rfl⟩, nofun⟩
    · exact ⟨⟨_, rfl⟩, fun vs h => by cases h; rfl⟩

private theorem probeOrBindDimension_post :
    (probeOrBindDimension embedder).post (fun _ w' => Probes w w') w := by
  refine post_tryCatch (P := fun _ w' => ∃ d, w' = { w with dimension := d }) ?_ ?_ ?_
  · refine post_bind dimension_post (fun n w₁ h₁ => ?_) fun e w₁ h₁ => ⟨w.dimension, h₁⟩
    subst h₁
    refine post_bind bindDimension_post (fun _ w₂ h₂ => ?_) fun e w₂ h₂ => h₂
    exact post_pure h₂
  · rintro _ _ ⟨d, rfl⟩
    exact ⟨w.faults, d, 0, by simp⟩
  · rintro _ _ ⟨d, rfl⟩
    refine post_bind aembed_post ?_ ?_
    · rintro vs _ ⟨⟨f, rfl⟩, _⟩
      have h₁ : Probes w { w with
          dimension := d, faults := f, calls := w.calls ++ [.aembed [EMBEDDING_PROBE_TEXT]] } :=
        ⟨f, d, 1, rfl⟩
      match vs with
      | [] | [] :: _        => exact post_throw h₁
      | (x :: row) :: rows  =>
        refine post_bind bindDimension_post ?_ ?_
        all_goals
          rintro _ _ ⟨d', rfl⟩
          exact ⟨f, d', 1, rfl⟩
    · rintro _ _ ⟨⟨f, rfl⟩, _⟩
      exact ⟨f, d, 1, rfl⟩

private theorem bindEmbedderToTarget_post {n : Nat} :
    (bindEmbedderToTarget n).post (fun _ w' => Probes w w') w := by
  unfold bindEmbedderToTarget
  refine post_get ?_
  dsimp only
  split
  case isTrue => exact post_throw .refl
  case isFalse =>
    refine post_bind bindDimension_post ?_ ?_
    all_goals
      rintro _ _ ⟨d, rfl⟩
      exact ⟨_, d, 0, by simp; rfl⟩

theorem readState_post {wiped : Bool} : (readState wiped).post (fun r w' => w.Reads w' ∧
    (r = .ok none → wiped ∨ w.db.embeddings = none) ∧
    ∀ d m n, r = .ok (some (d, m, n)) → wiped = false ∧ w.db.embeddings.isSome ∧
      d = w.db.meta? META_DIM_KEY ∧ m = w.db.meta? META_MODEL_KEY ∧ n = w.db.width?) w := by
  unfold readState
  split
  case isTrue h => exact post_pure ⟨.refl, fun _ => .inl h, nofun⟩
  case isFalse h =>
    refine post_bind select_post ?_ fun e w₁ h => ⟨h.left, nofun, nofun⟩
    rintro b _ ⟨⟨f₁, rfl⟩, hb⟩
    have hb := hb b rfl
    cases b
    case false => exact post_pure ⟨⟨_, rfl⟩, fun _ => .inr (by simpa using hb.symm), nofun⟩
    case true =>
      rw [if_pos rfl]
      refine post_bind metaGet_post ?_ fun e w₁ h => ⟨.trans ⟨_, rfl⟩ h.left, nofun, nofun⟩
      rintro d _ ⟨⟨f₂, rfl⟩, hd⟩
      refine post_bind metaGet_post ?_ fun e w₁ h => ⟨.trans ⟨_, rfl⟩ h.left, nofun, nofun⟩
      rintro m _ ⟨⟨f₃, rfl⟩, hm⟩
      refine post_bind schemaVecWidth_post ?_ fun e w₁ h => ⟨.trans ⟨_, rfl⟩ h.left, nofun, nofun⟩
      rintro n _ ⟨⟨f₄, rfl⟩, hn⟩
      refine post_pure ⟨⟨_, rfl⟩, nofun, fun d' m' n' he => ?_⟩
      cases he
      exact ⟨by simpa using h, hb.symm, hd _ rfl, hm _ rfl, hn _ rfl⟩

-- The recorded model is only written when a key was missing.
private theorem setModel_post {w₁ : World F} {m : String} (hb : w.Binds embedder.modelId w₁)
    (he : w₁.db.embeddings.isSome) (hd : (w₁.db.meta? META_DIM_KEY).isSome)
    (hn : m = LOCAL_EMBEDDING_MODEL_ID ∧ w.db.embeddings.isSome ∧
      (w.db.meta? META_DIM_KEY = none ∨ w.db.meta? META_MODEL_KEY = none) ∨
        m = embedder.modelId ∧ w.db.meta? META_MODEL_KEY = none) :
    (metaSet META_MODEL_KEY m).post (fun _ w' => w.Binds embedder.modelId w') w₁ := by
  refine post_mono metaSet_post ?_
  rintro _ _ (⟨⟨f, rfl⟩, _⟩ | ⟨f, hm, rfl, _⟩)
  case inl => exact { hb with }
  case inr => exact { hb with db := hb.db.setModel hm he hd hn }

private theorem writeInferred_post {dim : Nat} (he : w.db.embeddings.isSome)
    (hn : w.db.meta? META_DIM_KEY = none ∨ w.db.meta? META_MODEL_KEY = none) :
    (writeInferred dim).post (fun _ w' => w.Binds embedder.modelId w') w := by
  refine post_bind metaSet_post ?_ fun e w₁ h => (h.resolve_right nofun).left.binds
  rintro _ _ (⟨_, e, h⟩ | ⟨f, hm, rfl, _⟩)
  case inl => cases h
  have hb : w.Binds embedder.modelId { w with
      db := w.db.setMeta META_DIM_KEY (toString dim), faults := f } :=
    { (Binds.refl : w.Binds embedder.modelId w) with db := .setDim .refl hm }
  refine setModel_post hb he ?_ (.inl ⟨rfl, he, hn⟩)
  rw [Db.meta?_setMeta hm, if_pos rfl]
  rfl

private theorem bindToRecorded_post {d m : String} {n : Option Nat} :
    (bindToRecorded embedder d m n).post (fun _ w' => Probes w w') w := by
  have hd : (MonadExcept.ofExcept (parsePositiveDim d) : Conn F Nat).post (fun _ w' => w' = w) w := by
    cases parsePositiveDim d <;> exact rfl
  refine post_bind hd (fun k w₁ h => ?_) fun _ _ h => h ▸ .refl
  subst h
  split
  · exact post_throw .refl
  · split
    · exact bindEmbedderToTarget_post
    · exact probeOrBindDimension_post

private theorem bindToInferred_post {n : Nat} {readOnly : Bool} (he : w.db.embeddings.isSome)
    (hn : w.db.meta? META_DIM_KEY = none ∨ w.db.meta? META_MODEL_KEY = none) :
    (bindToInferred embedder n readOnly).post (fun _ w' => w.Binds embedder.modelId w') w := by
  unfold bindToInferred
  refine post_bind (P := fun _ w' => w.Binds embedder.modelId w') ?_ (fun _ w₁ h => ?_) fun _ _ h => h
  · split
    · exact post_pure .refl
    · exact writeInferred_post he hn
  · split
    · exact post_mono bindEmbedderToTarget_post fun _ _ h' => h.probes h'
    · exact post_mono probeOrBindDimension_post fun _ _ h' => h.probes h'

theorem bindEmbedderDimension_post {wiped readOnly : Bool} :
    (bindEmbedderDimension embedder wiped readOnly).post (fun _ w' => w.Binds embedder.modelId w') w := by
  unfold bindEmbedderDimension
  refine post_bind readState_post ?_ fun _ _ h => h.left.binds
  rintro r w₁ ⟨⟨f, rfl⟩, hr⟩
  replace hr := hr.right
  have hb : w.Binds embedder.modelId { w with faults := f } := Reads.binds ⟨f, rfl⟩
  split
  case h_1 => exact post_mono probeOrBindDimension_post fun _ _ h => hb.probes h
  case h_2 => exact post_mono bindToRecorded_post fun _ _ h => hb.probes h
  case h_3 d m n hn =>
    obtain ⟨_, he, rfl, rfl, _⟩ := hr _ _ _ rfl
    have hn' : w.db.meta? META_DIM_KEY = none ∨ w.db.meta? META_MODEL_KEY = none := by
      cases hd : w.db.meta? META_DIM_KEY
      case none   => exact .inl rfl
      case some d =>
        cases hm : w.db.meta? META_MODEL_KEY
        case none   => exact .inr rfl
        case some m => exact (hn d m hd hm).elim
    exact post_mono (bindToInferred_post (w := { w with faults := f }) he hn')
      fun _ _ h => { h with }

private theorem createEmbeddings_post {n : Nat} {w₁ : World F} (hb : w.Binds embedder.modelId w₁) :
    (createEmbeddings n).post (fun r w' => w.Binds embedder.modelId w' ∧
      ∀ a, r = .ok a → w'.db.embeddings.isSome) w₁ := by
  unfold createEmbeddings
  split
  case isFalse => exact post_throw ⟨hb, nofun⟩
  case isTrue =>
    refine post_mono execute_post ?_
    rintro _ _ (⟨⟨f, rfl⟩, e, rfl⟩ | ⟨db, f, hf, _, rfl, rfl⟩)
    case inl => exact ⟨{ hb with }, nofun⟩
    split at hf
    case isFalse => cases hf
    case isTrue hp =>
      split at hf <;> cases hf
      case h_1 e he => exact ⟨{ hb with }, fun _ _ => by simp [he]⟩
      case h_2 he   => exact ⟨{ hb with db := hb.db.create he n hp }, fun _ _ => rfl⟩

theorem tableWidth_post :
    tableWidth.post (fun r w' => w.Reads w' ∧ ∀ a, r = .ok a → a = w.db.width?) w := by
  refine post_bind select_post ?_ fun _ _ h => ⟨h.left, nofun⟩
  rintro b _ ⟨⟨f, rfl⟩, hb⟩
  have hb := hb b rfl
  split
  case isTrue  => exact post_mono schemaVecWidth_post fun _ _ h => ⟨.trans ⟨_, rfl⟩ h.left, h.right⟩
  case isFalse =>
    have hn : w.db.embeddings = none := by simp_all
    exact post_pure ⟨⟨_, rfl⟩, fun a h => by cases h; simp [Db.width?, hn]⟩

private theorem createTableAndSyncMeta_post {n : Nat} {w₁ : World F} (hb : w.Binds embedder.modelId w₁) :
    (createTableAndSyncMeta embedder n).post (fun _ w' => w.Binds embedder.modelId w') w₁ := by
  refine post_bind tableWidth_post ?_ fun _ _ h => hb.reads h.left
  rintro d _ ⟨⟨f₁, rfl⟩, _⟩
  refine post_bind metaGet_post ?_ fun _ _ h => hb.reads (.trans ⟨_, rfl⟩ h.left)
  rintro m _ ⟨⟨f₂, rfl⟩, hm⟩
  have hm := hm m rfl
  have hb₂ : w.Binds embedder.modelId { w₁ with faults := f₂ } := hb.reads ⟨_, rfl⟩
  split
  case isTrue => exact post_throw hb₂
  refine post_get ?_
  split
  case isTrue => exact post_pure hb₂
  refine post_bind (createEmbeddings_post hb₂) (fun _ w₄ ⟨h, he⟩ => ?_) fun _ _ h => h.left
  refine post_bind metaSet_post ?_ fun _ _ h' => h.reads (h'.resolve_right nofun).left
  rintro _ _ (⟨_, e, h'⟩ | ⟨f₅, hi, rfl, _⟩)
  case inl => cases h'
  have hb₅ : w.Binds embedder.modelId { w₄ with
      db := w₄.db.setMeta META_DIM_KEY (toString n), faults := f₅ } :=
    { h with db := h.db.setDim hi }
  split
  case isFalse => exact post_pure hb₅
  case isTrue hn =>
    refine setModel_post hb₅ (he _ rfl) ?_ ?_
    · rw [Db.meta?_setMeta hi, if_pos rfl]
      rfl
    · have hn' : w₁.db.meta? META_MODEL_KEY = none := hn ▸ hm.symm
      obtain hm' | ⟨_, ⟨hm', _⟩ | ⟨hm', _⟩⟩ := hb.db.model
      case inl     => exact .inr ⟨rfl, hm' ▸ hn'⟩
      case inr.inl => simp [hm'] at hn'
      case inr.inr => simp [hm'] at hn'

private theorem bindEmbeddings_post :
    (bindEmbeddings embedder).post (fun _ w' => w.Binds embedder.modelId w') w := by
  have hr : requireTable.post (fun _ w' => w.Reads w') w := by
    refine post_get ?_
    split
    case isTrue => exact post_pure .refl
    case isFalse =>
      refine post_bind select_post ?_ fun _ _ h => h.left
      rintro b _ ⟨⟨f, rfl⟩, _⟩
      split
      · exact post_pure ⟨_, rfl⟩
      · exact post_throw ⟨_, rfl⟩
  refine post_bind hr ?_ fun _ _ h => h.binds
  rintro _ _ ⟨f, rfl⟩
  refine post_get ?_
  refine post_bind bindEmbedderDimension_post ?_ fun _ _ h => { h with }
  exact fun n w₁ h => createTableAndSyncMeta_post { h with }

theorem ensureEmbeddingsBound_post : (ensureEmbeddingsBound embedder).post
    (fun r w' => w.Binds embedder.modelId w' ∧ ∀ a, r = .ok a → w'.bound) w := by
  refine post_get ?_
  split
  case isTrue hb => exact post_pure ⟨.refl, fun _ _ => hb⟩
  case isFalse =>
    refine post_bind bindEmbeddings_post (fun _ w₁ h => ?_) fun _ _ h => ⟨h, nofun⟩
    exact ⟨{ h with bound := fun _ => rfl }, fun _ _ => rfl⟩

end Conn
