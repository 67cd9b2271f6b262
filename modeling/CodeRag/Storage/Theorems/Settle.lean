import CodeRag.Storage.Theorems.DuckDB
import CodeRag.Storage.Theorems.Ready

-- Binding an embedder a second time gives the same result and changes nothing more, whatever happens
-- to the rows in between.

namespace Db

variable {F : Floats} {db db' db'' : Db F} {model : String} {wiped : Bool} {n : Nat} {h : 0 < n}

theorem meta?_fillMeta (hi : db.indexMeta.isSome) {k : String} : db.fillMeta.meta? k =
    if k = META_MODEL_KEY then some LOCAL_EMBEDDING_MODEL_ID
    else if k = META_DIM_KEY then some (toString db.inferredWidth) else db.meta? k := by
  unfold fillMeta
  rw [meta?_setMeta (by simpa using hi), meta?_setMeta hi]

-- The two databases agree on the table of the vectors and on the keys that describe it.
structure SameBinding (db db' : Db F) : Prop where
  embeddings : db'.embeddings.isSome = db.embeddings.isSome
  width      : db'.width? = db.width?
  dim        : db'.meta? META_DIM_KEY = db.meta? META_DIM_KEY
  model      : db'.meta? META_MODEL_KEY = db.meta? META_MODEL_KEY

namespace SameBinding

theorem refl : db.SameBinding db := ⟨rfl, rfl, rfl, rfl⟩

theorem symm (h : db.SameBinding db') : db'.SameBinding db :=
  ⟨h.embeddings.symm, h.width.symm, h.dim.symm, h.model.symm⟩

theorem trans (h : db.SameBinding db') (h' : db'.SameBinding db'') : db.SameBinding db'' :=
  ⟨h'.embeddings.trans h.embeddings, h'.width.trans h.width, h'.dim.trans h.dim,
    h'.model.trans h.model⟩

theorem isNone (h : db.SameBinding db') : db'.embeddings.isNone = db.embeddings.isNone := by
  have := h.embeddings
  cases he : db.embeddings <;> cases he' : db'.embeddings <;> simp_all

theorem plan (h : db.SameBinding db') : db'.bindPlan model wiped = db.bindPlan model wiped := by
  simp only [bindPlan, inferredWidth, h.isNone, h.width, h.dim, h.model]

theorem inferMeta (h : db.SameBinding db') (hi : db.indexMeta.isSome) (hi' : db'.indexMeta.isSome) :
    (db.inferMeta wiped).SameBinding (db'.inferMeta wiped) := by
  have hw : db'.inferredWidth = db.inferredWidth := by simp only [inferredWidth, h.width]
  have hc : (!wiped && db'.embeddings.isSome && db'.lacksMeta) =
      (!wiped && db.embeddings.isSome && db.lacksMeta) := by
    simp only [lacksMeta, h.embeddings, h.dim, h.model]
  refine ⟨by simpa using h.embeddings, by simpa using h.width, ?_, ?_⟩
  all_goals
    unfold Db.inferMeta
    rw [hc]
    split
  · have hne : META_DIM_KEY ≠ META_MODEL_KEY := by decide
    rw [meta?_fillMeta hi, meta?_fillMeta hi', if_neg hne, if_pos rfl, if_neg hne, if_pos rfl, hw]
  · exact h.dim
  · rw [meta?_fillMeta hi, meta?_fillMeta hi', if_pos rfl, if_pos rfl]
  · exact h.model

theorem finishBind (h : db.SameBinding db') (hi : db.indexMeta.isSome) (hi' : db'.indexMeta.isSome)
    {hn : ArraySize n} : (db.finishBind model n hn).SameBinding (db'.finishBind model n hn) where
  embeddings := by simp
  width      := by
    have hd : ∀ db : Db F, (db.finishBind model n hn).width? =
        if db.embeddings.isSome then db.width? else some n := by
      intro db
      simp only [width?, finishBind_embeddings]
      cases db.embeddings <;> rfl
    rw [hd, hd, h.embeddings, h.width]
  dim        := by rw [meta?_finishBind hi, meta?_finishBind hi', if_neg (by decide), if_pos rfl]; rfl
  model      := by rw [meta?_finishBind hi, meta?_finishBind hi', if_pos rfl, if_pos rfl, h.model]

end SameBinding

-- Once the missing keys are filled in, none is missing.
theorem inferMeta_of_sameBinding (h : (db.inferMeta wiped).SameBinding db')
    (hi : db.indexMeta.isSome) : db'.inferMeta wiped = db' := by
  rw [Db.inferMeta, if_neg]
  unfold Db.inferMeta at h
  split at h
  case isTrue =>
    have hd := h.dim
    have hm := h.model
    rw [meta?_fillMeta hi, if_neg (by decide), if_pos rfl] at hd
    rw [meta?_fillMeta hi, if_pos rfl] at hm
    simp [lacksMeta, hd, hm]
  case isFalse hn =>
    simpa only [lacksMeta, h.embeddings, h.dim, h.model] using hn

-- The keys are filled in with what is assumed of them anyway.
theorem bindPlan_inferMeta (hi : db.indexMeta.isSome) :
    (db.inferMeta wiped).bindPlan model wiped = db.bindPlan model wiped := by
  unfold inferMeta
  split
  case isFalse => rfl
  case isTrue hc =>
    simp only [Bool.and_eq_true, Bool.not_eq_true'] at hc
    obtain ⟨⟨rfl, he⟩, hl⟩ := hc
    have hn : db.embeddings.isNone = false := by
      obtain ⟨e, he⟩ := Option.isSome_iff_exists.mp he
      simp [he]
    have hm : ¬(db.width?.isSome ∧ db.width? ≠ some db.inferredWidth) := by
      rintro ⟨hs, hne⟩
      obtain ⟨n, hw⟩ := Option.isSome_iff_exists.mp hs
      exact hne (by rw [inferredWidth, hw]; rfl)
    have hw : db.width?.getD db.inferredWidth = db.inferredWidth := by
      unfold inferredWidth
      cases db.width? <;> rfl
    have hd : db.fillMeta.meta? META_DIM_KEY = some (toString db.inferredWidth) := by
      rw [meta?_fillMeta hi, if_neg (by decide), if_pos rfl]
    have hmo : db.fillMeta.meta? META_MODEL_KEY = some LOCAL_EMBEDDING_MODEL_ID := by
      rw [meta?_fillMeta hi, if_pos rfl]
    have hfw : db.fillMeta.width? = db.width? := rfl
    have hfe : db.fillMeta.embeddings = db.embeddings := rfl
    unfold bindPlan
    simp only [hd, hmo, hfw, hfe, hn, Bool.or_self, Bool.false_eq_true, if_false,
      Conn.parsePositiveDim_toString inferredWidth_size, if_neg hm, hw, eq_comm (a := LOCAL_EMBEDDING_MODEL_ID)]
    cases hd' : db.meta? META_DIM_KEY <;> cases hm' : db.meta? META_MODEL_KEY <;> try rfl
    simp [lacksMeta, hd', hm'] at hl

end Db

namespace World

open Conn

variable {F : Floats} {w w' w₀ : World F} {embedder : Embedder F}

-- The two states agree on all that binding an embedder reads.
structure SameBinding (w w' : World F) : Prop where
  db          : w.db.SameBinding w'.db
  bound       : w'.bound = w.bound
  pendingWipe : w'.pendingWipe = w.pendingWipe
  dimension   : w'.dimension = w.dimension

theorem SameBinding.refl : w.SameBinding w :=
  ⟨.refl, rfl, rfl, rfl⟩

theorem SameBinding.samePlan (h : w.SameBinding w') : SamePlan embedder w w' where
  plan      := by rw [h.db.plan, h.pendingWipe]
  width     := h.db.width
  bound     := h.bound
  dimension := h.dimension

-- The session has either not tried to bind its embedder since state `w₀`, or it has the result of that
-- attempt.
def Settled (embedder : Embedder F) (w₀ w : World F) : Prop :=
  w₀.SameBinding w ∨ (ensureEmbeddingsBound embedder w₀).state.SameBinding w

theorem SameBinding.inferred (h : w.SameBinding w') (hw : w.Ready) (hw' : w'.Ready) :
    (inferredWorld w).db.SameBinding (inferredWorld w').db := by
  have hi : (w.db.inferMeta w.pendingWipe).SameBinding (w'.db.inferMeta w.pendingWipe) :=
    h.db.inferMeta hw.indexMeta hw'.indexMeta
  simpa only [inferredWorld, h.pendingWipe] using hi

private theorem sameBinding_probed {d : Option Nat} {k k' : Nat} (h : w.SameBinding w') (hw : w.Ready)
    (hw' : w'.Ready) : ((inferredWorld w).probed d k).SameBinding ((inferredWorld w').probed d k') :=
  ⟨h.inferred hw hw', h.bound, h.pendingWipe, rfl⟩

-- The state after a failed attempt, in which the missing keys are filled in.
private theorem sameBinding_again {d : Option Nat} {k k' : Nat} (hw₀ : w₀.Ready)
    (h : ((inferredWorld w₀).probed d k).SameBinding w) :
    ((inferredWorld w₀).probed d k).SameBinding ((inferredWorld w).probed d k') := by
  have hi : w.db.inferMeta w.pendingWipe = w.db := by
    rw [h.pendingWipe]
    exact Db.inferMeta_of_sameBinding h.db hw₀.indexMeta
  refine ⟨?_, h.bound, h.pendingWipe, rfl⟩
  rw [probed_db, probed_db, inferredWorld, inferredWorld, hi]
  exact h.db

private theorem plan_again {d : Option Nat} {k : Nat} (hw₀ : w₀.Ready)
    (h : ((inferredWorld w₀).probed d k).SameBinding w) :
    sessionPlan embedder w = sessionPlan embedder w₀ := by
  unfold sessionPlan
  rw [h.db.plan, h.pendingWipe]
  exact Db.bindPlan_inferMeta hw₀.indexMeta

theorem ensure_settled (h₀ : w₀.Ready) (h : w.Ready) (hs : Settled embedder w₀ w) :
    (ensureEmbeddingsBound embedder w).outcome = (ensureEmbeddingsBound embedder w₀).outcome ∧
      (ensureEmbeddingsBound embedder w₀).state.SameBinding (ensureEmbeddingsBound embedder w).state := by
  cases hb : w₀.bound
  case true =>
    have hE₀ : ensureEmbeddingsBound embedder w₀ = _ := ensure_of_bound hb
    have hs' : w₀.SameBinding w := by
      obtain hs | hs := hs
      case inl => exact hs
      case inr => rwa [hE₀] at hs
    rw [hE₀, ensure_of_bound (hs'.bound.trans hb)]
    exact ⟨rfl, hs'⟩
  obtain ⟨e, k, he⟩ | ⟨n, k, hr, ho⟩ := ensureEmbeddingsBound_of_ready embedder hb
  case inl =>
    have hE₀ := he w₀ h₀ .refl
    rw [Settled, hE₀] at hs
    rw [hE₀]
    obtain hs | hs := hs
    case inl =>
      rw [he w h hs.samePlan]
      exact ⟨rfl, sameBinding_probed hs h₀ h⟩
    case inr =>
      rw [he w h ⟨plan_again h₀ hs, hs.db.width.trans Db.inferMeta_width?, hs.bound, hs.dimension⟩]
      exact ⟨rfl, sameBinding_again h₀ hs⟩
  case inr =>
    have hE₀ := ho w₀ h₀ .refl
    rw [Settled, hE₀] at hs
    rw [hE₀]
    by_cases ht : w₀.db.Admits n
    case neg =>
      rw [dif_neg ht] at hs ⊢
      obtain hs | hs := hs
      case inl =>
        rw [ho w h hs.samePlan, dif_neg ht]
        exact ⟨rfl, sameBinding_probed hs h₀ h⟩
      case inr =>
        have hwidth : w.db.width? = w₀.db.width? := hs.db.width.trans Db.inferMeta_width?
        obtain ⟨k', hE⟩ := ensureEmbeddingsBound_of_reaches h (hs.bound.trans hb)
          (plan_again h₀ hs ▸ hr) (.inr hs.dimension)
        rw [hE, dif_neg (mt (Db.admits_congr hwidth).mp ht), Db.refusal_congr hwidth]
        exact ⟨rfl, sameBinding_again h₀ hs⟩
    case pos =>
      rw [dif_pos ht] at hs ⊢
      obtain hs | hs := hs
      case inl =>
        rw [ho w h hs.samePlan, dif_pos ht]
        refine ⟨rfl, (hs.inferred h₀ h).finishBind ?_ ?_, rfl, rfl, rfl⟩
        · simpa [inferredWorld] using h₀.indexMeta
        · simpa [inferredWorld] using h.indexMeta
      case inr =>
        rw [ensure_of_bound hs.bound]
        exact ⟨rfl, hs⟩

-- An index that is open for writing. A session that has bound its embedder has a table.
structure Usable (w : World F) : Prop extends w.Ready where
  table : w.bound → w.db.embeddings.isSome

-- A state of a session that was in state `w₀` before.
structure Working (embedder : Embedder F) (w₀ w : World F) : Prop extends w.Usable where
  settled : Settled embedder w₀ w
  dirty   : w.dirty = w₀.dirty

theorem Usable.working (h : w.Usable) : w.Working embedder w :=
  ⟨h, .inl .refl, rfl⟩

theorem SameBinding.trans {w'' : World F} (h : w.SameBinding w') (h' : w'.SameBinding w'') :
    w.SameBinding w'' where
  db          := h.db.trans h'.db
  bound       := h'.bound.trans h.bound
  pendingWipe := h'.pendingWipe.trans h.pendingWipe
  dimension   := h'.dimension.trans h.dimension

namespace Working

theorem bindable_iff (h₀ : w₀.Ready) (h : w₀.Working embedder w) :
    Bindable embedder w ↔ Bindable embedder w₀ := by
  rw [←ensure_ok_iff h.toReady, ←ensure_ok_iff h₀, (ensure_settled h₀ h.toReady h.settled).left]

-- Work on the rows of the index.
theorem congr (h : w₀.Working embedder w) (hb : w.SameBinding w') (hm : w'.mode = w.mode)
    (hd : w'.dirty = w.dirty) (hi : w'.db.indexMeta.isSome = w.db.indexMeta.isSome)
    (hf : w'.FaultFree) : w₀.Working embedder w' where
  faultFree := hf
  mode      := hm.trans h.mode
  indexMeta := hi ▸ h.indexMeta
  table hb' := hb.db.embeddings ▸ h.table (hb.bound ▸ hb')
  settled   := h.settled.imp (·.trans hb) (·.trans hb)
  dirty     := hd.trans h.dirty

theorem reads (h : w₀.Working embedder w) (hr : w.Reads w') (hl : later w w') :
    w₀.Working embedder w' := by
  obtain ⟨f, rfl⟩ := hr
  exact h.congr ⟨.refl, rfl, rfl, rfl⟩ rfl rfl rfl (h.faultFree.later hl)

theorem ensure (h : w₀.Working embedder w) (h₀ : w₀.Ready) :
    w₀.Working embedder (ensureEmbeddingsBound embedder w).state := by
  have hb := (ensureEmbeddingsBound_post : (ensureEmbeddingsBound embedder).post _ w).left
  have hr := h.toReady.binds hb (ensureEmbeddingsBound_built.later w)
  refine ⟨⟨hr, ?_⟩, .inr (ensure_settled h₀ h.toReady h.settled).right, hb.dirty.trans h.dirty⟩
  cases hb : w.bound
  case true  => rw [ensure_of_bound hb]; exact h.table
  case false =>
    obtain ⟨e, k, he⟩ | ⟨n, k, hr, he⟩ := ensureEmbeddingsBound_of_ready embedder hb
    case inl => rw [he w h.toReady .refl]; exact fun hn => absurd hn (by simp [inferredWorld, probed, hb])
    case inr =>
      rw [he w h.toReady .refl]
      split
      case isTrue  => exact fun _ => by simp
      case isFalse => exact fun hn => absurd hn (by simp [inferredWorld, probed, hb])

theorem getUnit {i : String} (h : w₀.Working embedder w) :
    w₀.Working embedder (getUnit i w).state :=
  h.reads getUnit_post.left (getUnit_built.later w)

theorem aembed {texts : List String} (h : w₀.Working embedder w) :
    w₀.Working embedder (aembed embedder texts w).state := by
  have ⟨f, hw⟩ := (aembed_post : (Conn.aembed embedder texts).post _ w).left
  refine h.congr ?_ ?_ ?_ ?_ (h.faultFree.later (aembed_built.later w)) <;> rw [hw]
  exact ⟨.refl, rfl, rfl, rfl⟩

theorem hasEmbedding {i : String} (h₀ : w₀.Ready) (h : w₀.Working embedder w) :
    w₀.Working embedder (hasEmbedding embedder i w).state := by
  have he : (ensureEmbeddingsBound embedder).post (fun _ w' => w₀.Working embedder w') w := h.ensure h₀
  refine EStateM.post_bind (Q := fun _ w' => w₀.Working embedder w') he (fun _ w₁ h₁ => ?_) fun _ _ => id
  exact h₁.reads select_post.left (select_built.later w₁)

private theorem frame {f : Nat → Bool} (h : w₀.Working embedder w)
    (hw : w' = { w with db := w'.db, faults := f })
    (he : w'.db.embeddings.isSome = w.db.embeddings.isSome) (hwidth : w'.db.width? = w.db.width?)
    (hi : w'.db.indexMeta = w.db.indexMeta) (hf : w'.FaultFree) : w₀.Working embedder w' := by
  have hm : ∀ k, w'.db.meta? k = w.db.meta? k := fun k => by simp only [Db.meta?, hi]
  refine h.congr ⟨⟨he, hwidth, hm _, hm _⟩, ?_, ?_, ?_⟩ ?_ ?_ (by rw [hi]) hf <;> rw [hw]

theorem upsertUnit {u : KnowledgeUnit} {vector : Option (List F)} (h₀ : w₀.Ready)
    (h : w₀.Working embedder w) : w₀.Working embedder (upsertUnit embedder u vector w).state := by
  obtain ⟨w₁, hu⟩ := (upsertUnit_post : (Conn.upsertUnit embedder u vector).post _ w)
  have h₁ : w₀.Working embedder w₁ := by
    rw [hu.start]
    split
    · exact h.ensure h₀
    · exact h
  obtain ⟨f, hw⟩ := hu.frame
  exact h₁.frame hw hu.stores.isSome hu.stores.width hu.stores.indexMeta
    (h.faultFree.later (upsertUnit_built.later w))

theorem deleteStaleUnits {path : String} {ids : List String} (h₀ : w₀.Ready)
    (h : w₀.Working embedder w) : w₀.Working embedder (deleteStaleUnits embedder path ids w).state := by
  obtain ⟨w₁, f, hs, _, hw, hd, _⟩ :=
    (deleteStaleUnits_post : (Conn.deleteStaleUnits embedder path ids).post _ w)
  have h₁ : w₀.Working embedder w₁ := hs ▸ h.ensure h₀
  exact h₁.frame hw hd.isSome hd.width hd.indexMeta (h.faultFree.later (deleteStaleUnits_built.later w))

end Working
end World

namespace Conn

open EStateM World

variable {F : Floats} {w : World F} {embedder : Embedder F} {path : String} {ids : List String}

-- Stale units can be deleted as soon as the embedder can be bound.
theorem deleteStaleUnits_ok_iff (h : w.Usable) :
    (deleteStaleUnits embedder path ids w).outcome = .ok () ↔ Bindable embedder w := by
  rw [←ensure_ok_iff h.toReady]
  cases he : ensureEmbeddingsBound embedder w
  case error e w' => simp [deleteStaleUnits, bind_of_error he]
  case ok w' =>
    have hu : w.Working embedder (ensureEmbeddingsBound embedder w).state := h.working.ensure h.toReady
    have hb := (ensureEmbeddingsBound_post : (ensureEmbeddingsBound embedder).post _ w).right ()
    rw [he] at hu hb
    have hu : w'.Usable := hu.toUsable
    have ht := hu.table (hb rfl)
    simp only [EStateM.Result.outcome_ok, iff_true]
    unfold deleteStaleUnits
    rw [bind_of_ok he]
    have hx := fun (db : Db F) (f : Db F → Except Exn (Db F)) =>
      execute_of_faultFree (w := { w' with db := db }) (f := f) hu.faultFree hu.mode
    rw [bind_of_ok (show deleteVectors _ w' = .ok () { w' with
      db := w'.db.deleteVectors (w'.db.unitIdWhere (isStale path ids)) } by
        rw [deleteVectors, execute_of_faultFree hu.faultFree hu.mode, if_pos ht])]
    rw [bind_of_ok (hx _ _), hx]
    rfl

end Conn
