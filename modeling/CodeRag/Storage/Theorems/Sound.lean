import CodeRag.Storage.Theorems.DuckDB
import CodeRag.Storage.Theorems.Open
import CodeRag.Storage.Theorems.Ready

-- The keys of an index that describe its vectors, over the operations of sessions without faults.

-- The vectors that embedding models compute. The vectors of one model have one width.
structure Models (F : Floats) where
  embedding        : String → String → List F
  width            : String → Nat
  length_embedding : ∀ m text, (embedding m text).length = width m

-- The embedder returns the vectors of its model.
def Embedder.Computes {F : Floats} (embedder : Embedder F) (models : Models F) : Prop :=
  ∀ dim texts vectors, embedder.aembed dim texts = .ok vectors →
    vectors = texts.map (models.embedding embedder.modelId)

namespace Db

variable {F : Floats} {db db' : Db F} {m model k : String} {n : Nat} {h : ArraySize n} {wiped : Bool}

-- The table of the vectors is described by its width and by model `m`; without a table, no model is
-- recorded.
structure Describes (m : String) (db : Db F) : Prop where
  model   : db.embeddings.isSome → db.meta? META_MODEL_KEY = some m
  dim     : db.embeddings.isSome → (db.meta? META_DIM_KEY).isSome
  noModel : db.embeddings = none → db.meta? META_MODEL_KEY = none

theorem Describes.inferMeta (hd : db.Describes m) : db.inferMeta wiped = db := by
  unfold Db.inferMeta
  split
  case isFalse => rfl
  case isTrue h =>
    simp only [Bool.and_eq_true, lacksMeta, Bool.or_eq_true, Option.isNone_iff_eq_none] at h
    have hs := hd.dim h.left.right
    have hm := hd.model h.left.right
    obtain ⟨_, h | h⟩ := h
    · simp [h] at hs
    · simp [h] at hm

theorem Describes.finishBind (hd : db.Describes m) (hi : db.indexMeta.isSome)
    (hm : m = model ∨ db.embeddings.isSome) : (db.finishBind model n h).Describes m where
  model _   := by
    rw [meta?_finishBind hi, if_pos rfl]
    by_cases he : db.embeddings.isSome
    case pos => rw [hd.model he]; rfl
    case neg => rw [hd.noModel (by simpa using he), hm.resolve_right he]; rfl
  dim _     := by
    rw [meta?_finishBind hi, if_neg (by decide), if_pos rfl]
    rfl
  noModel h := by simp at h

-- Only the table of the vectors and the keys of the index matter.
theorem Describes.congr (hd : db.Describes m) (he : db'.embeddings.isSome = db.embeddings.isSome)
    (hk : ∀ k, db'.meta? k = db.meta? k) : db'.Describes m := by
  refine ⟨fun h => hk _ ▸ hd.model (he ▸ h), fun h => hk _ ▸ hd.dim (he ▸ h), fun h => ?_⟩
  rw [hk, hd.noModel]
  rw [h] at he
  exact Option.isSome_eq_false_iff.mp he.symm |> Option.isNone_iff_eq_none.mp

-- Without a table, no model has to be recorded.
theorem Describes.of_none (he : db.embeddings = none) (hm : db.meta? META_MODEL_KEY = none) :
    db.Describes m where
  model h   := by simp [he] at h
  dim h     := by simp [he] at h
  noModel _ := hm

end Db

namespace World

variable {F : Floats} {w w' : World F} {m : String}

-- An index that is open for writing, whose vectors are described by model `m`.
structure Described (m : String) (w : World F) : Prop extends w.Ready where
  llmFaults : w.llmFaults = noFaults
  describes : w.db.Describes m

theorem Described.of_eq (h : w.Described m) (hdb : w'.db = w.db) (hm : w'.mode = w.mode)
    (hf : w'.faults = w.faults) (hl : w'.llmFaults = w.llmFaults) : w'.Described m where
  faultFree := hf.trans h.faultFree
  mode      := hm.trans h.mode
  indexMeta := hdb ▸ h.indexMeta
  llmFaults := hl.trans h.llmFaults
  describes := hdb ▸ h.describes

end World

namespace World

open Conn

variable {F : Floats} {w : World F} {m : String} {embedder : Embedder F}

theorem Described.ensure (h : w.Described m) (hm : m = embedder.modelId ∨ w.db.embeddings.isSome) :
    (ensureEmbeddingsBound embedder w).state.Described m := by
  by_cases hb : w.bound
  case pos =>
    unfold ensureEmbeddingsBound
    rw [EStateM.get_bind, if_pos hb]
    exact h
  have hinf : inferredWorld w = w := by
    unfold inferredWorld
    rw [h.describes.inferMeta]
  obtain ⟨e, k, he⟩ | ⟨n, k, hr, ho⟩ :=
    ensureEmbeddingsBound_of_ready embedder (w := w) (by simpa using hb)
  case inl =>
    rw [he w h.toReady .refl, hinf]
    exact h.of_eq rfl rfl rfl rfl
  case inr =>
    rw [ho w h.toReady .refl]
    split
    case isFalse => rw [hinf]; exact h.of_eq rfl rfl rfl rfl
    case isTrue  =>
      rw [hinf]
      exact {
        faultFree := h.faultFree
        mode      := h.mode
        indexMeta := Db.finishBind_isSome h.indexMeta
        llmFaults := h.llmFaults
        describes := h.describes.finishBind h.indexMeta hm }

-- A change of the rows does not touch the description of the table.
theorem Described.frame {w' : World F} {f : Nat → Bool} (h : w.Described m)
    (hw : w' = { w with db := w'.db, faults := f })
    (he : w'.db.embeddings.isSome = w.db.embeddings.isSome) (hi : w'.db.indexMeta = w.db.indexMeta)
    (hf : w'.FaultFree) : w'.Described m where
  faultFree := hf
  mode      := by rw [hw]; exact h.mode
  indexMeta := hi ▸ h.indexMeta
  llmFaults := by rw [hw]; exact h.llmFaults
  describes := h.describes.congr he fun k => by simp only [Db.meta?, hi]

theorem Described.reads {w' : World F} (h : w.Described m) (hr : w.Reads w') (hl : later w w') :
    w'.Described m := by
  obtain ⟨f, rfl⟩ := hr
  exact h.frame rfl rfl rfl (h.faultFree.later hl)

theorem Described.getUnit {i : String} (h : w.Described m) : (getUnit i w).state.Described m :=
  h.reads getUnit_post.left (getUnit_built.later w)

theorem Described.aembed {texts : List String} (h : w.Described m) :
    (aembed embedder texts w).state.Described m := by
  have ⟨f, hw⟩ := (aembed_post : (Conn.aembed embedder texts).post _ w).left
  refine h.of_eq ?_ ?_ ?_ ?_
  case refine_3 =>
    exact (h.faultFree.later (aembed_built.later w)).trans h.faultFree.symm
  all_goals rw [hw]

theorem Described.hasEmbedding {i : String} (h : w.Described m)
    (hm : m = embedder.modelId ∨ w.db.embeddings.isSome) :
    (hasEmbedding embedder i w).state.Described m := by
  have he : (ensureEmbeddingsBound embedder).post (fun _ w' => w'.Described m) w := h.ensure hm
  refine EStateM.post_bind (Q := fun _ w' => w'.Described m) he (fun _ w₁ h₁ => ?_) fun _ _ => id
  exact h₁.reads select_post.left (select_built.later w₁)

theorem Described.upsertUnit {u : KnowledgeUnit} {vector : Option (List F)} (h : w.Described m)
    (hm : m = embedder.modelId ∨ w.db.embeddings.isSome) :
    (upsertUnit embedder u vector w).state.Described m := by
  obtain ⟨w₁, hu⟩ := (upsertUnit_post : (Conn.upsertUnit embedder u vector).post _ w)
  have h₁ : w₁.Described m := by
    rw [hu.start]
    split
    · exact h.ensure hm
    · exact h
  obtain ⟨f, hw⟩ := hu.frame
  exact h₁.frame hw hu.stores.isSome hu.stores.indexMeta (h.faultFree.later (upsertUnit_built.later w))

theorem Described.deleteStaleUnits {path : String} {ids : List String} (h : w.Described m)
    (hm : m = embedder.modelId ∨ w.db.embeddings.isSome) :
    (deleteStaleUnits embedder path ids w).state.Described m := by
  obtain ⟨w₁, f, hs, _, hw, hd, _⟩ :=
    (deleteStaleUnits_post : (Conn.deleteStaleUnits embedder path ids).post _ w)
  have h₁ : w₁.Described m := hs ▸ h.ensure hm
  exact h₁.frame hw hd.isSome hd.indexMeta (h.faultFree.later (deleteStaleUnits_built.later w))

end World
