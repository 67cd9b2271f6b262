import CodeRag.Storage.Theorems.Ready
import CodeRag.Storage.Theorems.Atomic

-- When binding an embedder changes no table, whichever of its statements fail.

namespace Conn

open EStateM World

variable {F : Floats} {w : World F} {embedder : Embedder F} {n : Nat} {plan : BindPlan}

private theorem bindDimension_cases :
    (0 < n ∧ (w.dimension = none ∨ w.dimension = some n) ∧
      bindDimension n w = .ok () { w with dimension := some n }) ∨
    ∃ e, bindDimension n w = .error e w := by
  by_cases h : 0 < n ∧ (w.dimension = none ∨ w.dimension = some n)
  case pos => exact .inl ⟨h.left, h.right, bindDimension_ok h.left h.right⟩
  case neg =>
    obtain ⟨e, he⟩ := bindDimension_error (F := F) h
    exact .inr ⟨e, he w rfl⟩

private theorem probe_reaches : (probeOrBindDimension embedder).post (fun r w' => w'.db = w.db ∧
    ∀ n, r = .ok n → Reaches embedder .probe w.dimension n) w := by
  refine post_tryCatch (P := fun r w' => w' = w ∧
    ∀ n, r = .ok n → Reaches embedder .probe w.dimension n) ?_ ?_ ?_
  · obtain ⟨k, hk, hd, hb⟩ | ⟨_, e, hb⟩ := boundDimension_eq (d := w.dimension) (F := F)
    case inr => exact post_of_error (hb w rfl) ⟨rfl, nofun⟩
    case inl =>
      refine post_of_ok (hb w rfl) ⟨rfl, fun n hn => ?_⟩
      cases hn
      exact ⟨nofun, hk, .inr hd, nofun, fun _ hn => by simp [hd] at hn⟩
  · exact fun _ _ ⟨h, hr⟩ => ⟨by rw [h], hr⟩
  · intro e w₁ ⟨h, _⟩
    rw [h]
    refine post_bind aembed_post ?_ fun _ _ h => ⟨by rw [h.left.choose_spec], nofun⟩
    rintro rows _ ⟨⟨f, rfl⟩, hrows⟩
    have hrows := hrows rows rfl
    match rows with
    | [] | [] :: _       => exact post_throw ⟨rfl, nofun⟩
    | (x :: row) :: rows =>
      obtain ⟨hp, hd, hb⟩ | ⟨e, hb⟩ := bindDimension_cases (n := (x :: row).length) (w := { w with
        faults := f, calls := w.calls ++ [.aembed [EMBEDDING_PROBE_TEXT]] })
      case inr => exact post_of_error (bind_of_error hb) ⟨rfl, nofun⟩
      case inl =>
        refine post_of_ok (bind_of_ok hb) ⟨rfl, fun n hn => ?_⟩
        cases hn
        exact ⟨nofun, hp, hd, nofun, fun _ hn => ⟨_, _, hn ▸ hrows, rfl⟩⟩

private theorem target_reaches : (bindEmbedderToTarget n).post (fun r w' => w'.db = w.db ∧
    ∀ k, r = .ok k → Reaches embedder (.target n) w.dimension k) w := by
  refine post_get ?_
  dsimp only
  split
  case isTrue  => exact post_throw ⟨rfl, nofun⟩
  case isFalse =>
    obtain ⟨hp, hd, hb⟩ | ⟨e, hb⟩ := bindDimension_cases (n := n) (w := w)
    case inr => exact post_of_error (bind_of_error hb) ⟨rfl, nofun⟩
    case inl =>
      refine post_of_ok (bind_of_ok hb) ⟨rfl, fun k hk => ?_⟩
      cases hk
      exact ⟨nofun, hp, hd, fun t ht => by cases ht; rfl, nofun⟩

private theorem runPlan_reaches : (runPlan embedder plan).post (fun r w' => w'.db = w.db ∧
    ∀ n, r = .ok n → Reaches embedder plan w.dimension n) w := by
  cases plan
  case fails e  => exact post_throw ⟨rfl, nofun⟩
  case probe    => exact probe_reaches
  case target n => exact target_reaches

-- No key of the table is missing, so none is filled in.
private theorem bindEmbedderDimension_reaches {wiped : Bool}
    (hl : wiped = false → w.db.embeddings.isSome → w.db.lacksMeta = false) :
    (bindEmbedderDimension embedder wiped false).post (fun r w' => w'.db = w.db ∧
      ∀ n, r = .ok n → Reaches embedder (w.db.bindPlan embedder.modelId wiped) w.dimension n) w := by
  unfold bindEmbedderDimension
  refine post_bind readState_post ?_ fun e w₁ h => ⟨by rw [h.left.choose_spec], nofun⟩
  rintro r _ ⟨⟨f, rfl⟩, hnone, hsome⟩
  match r with
  | none =>
    have hplan : w.db.bindPlan embedder.modelId wiped = .probe := by
      unfold Db.bindPlan
      obtain h | h := hnone rfl <;> simp [h]
    rw [hplan]
    exact probe_reaches
  | some (d, m, n) =>
    obtain ⟨rfl, he, rfl, rfl, rfl⟩ := hsome d m n rfl
    have hlacks := hl rfl he
    cases hd : w.db.meta? META_DIM_KEY
    case none => simp [Db.lacksMeta, hd] at hlacks
    case some raw =>
      cases hm : w.db.meta? META_MODEL_KEY
      case none => simp [Db.lacksMeta, hm] at hlacks
      case some m =>
        show (bindToRecorded embedder raw m w.db.width?).post _ _
        rw [bindToRecorded_eq he hd hm]
        exact runPlan_reaches

-- Nothing is to be filled in or to be written about the vectors of the index.
structure Recorded (embedder : Embedder F) (w : World F) : Prop where
  filled   : w.pendingWipe = false → w.db.embeddings.isSome → w.db.lacksMeta = false
  finished : ∀ n, Reaches embedder (sessionPlan embedder w) w.dimension n → w.db.Admits n →
    w.db.embeddings.isSome ∧ w.db.meta? META_DIM_KEY = some (toString n) ∧
      (w.db.meta? META_MODEL_KEY).isSome

private theorem createTableAndSyncMeta_recorded {db : Db F} (hs : db.Same w.db)
    (hn : w.db.Admits n → w.db.embeddings.isSome ∧ w.db.meta? META_DIM_KEY = some (toString n) ∧
      (w.db.meta? META_MODEL_KEY).isSome) (hm : w.mode = .readWrite) :
    (createTableAndSyncMeta embedder n).post
      (fun r w' => db.Same w'.db ∧ (r = .ok () → w.db.Admits n)) w := by
  refine post_bind tableWidth_post ?_ fun e w₁ h => ⟨by rw [h.left.choose_spec]; exact hs, not_ok⟩
  rintro d _ ⟨⟨f₁, rfl⟩, hd⟩
  cases hd d rfl
  refine post_bind metaGet_post ?_ fun e w₁ h => ⟨by rw [h.left.choose_spec]; exact hs, not_ok⟩
  rintro m _ ⟨⟨f₂, rfl⟩, hm'⟩
  cases hm' m rfl
  split
  case isTrue => exact post_throw ⟨hs, not_ok⟩
  case isFalse hw =>
    have hw : w.db.width?.isSome → w.db.width? = some n := fun h => by_contra fun hc => hw ⟨h, hc⟩
    refine post_get ?_
    rw [if_neg (by simp [hm])]
    refine post_bind (P := fun r w' => w'.db = w.db ∧ (r = .ok () → ArraySize n)) ?_ ?_
      fun _ _ h => ⟨by rw [h.left]; exact hs, not_ok⟩
    · unfold createEmbeddings
      split
      case isFalse => exact post_throw ⟨rfl, not_ok⟩
      case isTrue =>
        refine post_mono execute_post ?_
        rintro _ _ (⟨⟨f₃, rfl⟩, _, rfl⟩ | ⟨db', f₃, hdb, _, rfl, _⟩)
        case inl => exact ⟨rfl, not_ok⟩
        split at hdb
        case isFalse => cases hdb
        case isTrue hsize =>
          obtain ⟨e, he⟩ := Option.isSome_iff_exists.mp (hn ⟨hsize, hw⟩).left
          simp only [he, Except.ok.injEq] at hdb
          exact ⟨hdb.symm, fun _ => hsize⟩
    · rintro _ w₃ ⟨h₃, hsize⟩
      have ht : w.db.Admits n := ⟨hsize rfl, hw⟩
      obtain ⟨he, hdim, hmodel⟩ := hn ht
      have hdim₃ : w₃.db.meta? META_DIM_KEY = some (toString n) := by rw [h₃, hdim]
      refine post_bind metaSet_post ?_ ?_
      · rintro _ _ (⟨_, _, h⟩ | ⟨f₄, _, rfl, _⟩)
        case inl => cases h
        rw [if_neg (by simpa [Option.isSome_iff_ne_none] using hmodel)]
        exact post_pure ⟨(h₃ ▸ hs).trans (Db.same_setMeta hdim₃), fun _ => ht⟩
      · rintro _ _ (⟨⟨f₄, rfl⟩, _⟩ | ⟨_, _, _, h⟩)
        case inl => exact ⟨h₃ ▸ hs, not_ok⟩
        case inr => cases h

-- Binding an embedder changes no table.
def BindsNothing (embedder : Embedder F) (w : World F) : Prop :=
  w.bound ∨ Recorded embedder w

theorem ensure_bindsNothing (hm : w.mode = .readWrite) (h : BindsNothing embedder w) :
    (ensureEmbeddingsBound embedder).post (fun r w' => w.db.Same w'.db ∧
      (r = .ok () → Bindable embedder w)) w := by
  by_cases hb : w.bound
  case pos => exact post_of_ok (ensure_of_bound hb) ⟨.refl, fun _ => .inl hb⟩
  have h := h.resolve_left hb
  refine post_get ?_
  rw [if_neg (by simpa using hb)]
  refine post_bind (P := fun r w' => w.db.Same w'.db ∧ (r = .ok () → Bindable embedder w)) ?_
    (fun _ w₁ h₁ => ⟨h₁.left, h₁.right⟩) fun _ _ h₁ => h₁
  have hq : requireTable w = .ok () w := by
    unfold requireTable
    rw [get_bind, if_pos hm]
    rfl
  refine post_bind (post_of_ok (Q := fun r w' => w' = w) hq rfl) ?_ fun _ _ h => ⟨h ▸ .refl, nofun⟩
  intro _ w₁ h₁
  rw [h₁]
  refine post_get ?_
  rw [show decide (w.mode = .readOnly) = false by simp [hm]]
  refine post_bind (post_and (bindEmbedderDimension_reaches h.filled) bindEmbedderDimension_post) ?_
    fun _ _ h => ⟨h.left.left ▸ .refl, nofun⟩
  intro n w₂ ⟨⟨hdb, hr⟩, hb⟩
  have hr := hr n rfl
  refine post_mono (createTableAndSyncMeta_recorded (hdb ▸ .refl : w.db.Same w₂.db) ?_
    (hb.mode.trans hm)) ?_
  · rw [hdb]
    exact h.finished n hr
  · intro r w₃ ⟨hs, ho⟩
    rw [hdb] at ho
    exact ⟨hs, fun hok => .inr ⟨n, hr, ho hok⟩⟩

end Conn
