import CodeRag.Services.Theorems.Requests
import CodeRag.Services.Theorems.Sample
import CodeRag.Services.Theorems.SyncFile
import CodeRag.Storage.Theorems.Open
import CodeRag.Storage.Theorems.Sound

-- Whether the vectors of an index are those of the texts that its units have now.

namespace Db

variable {F : Floats} {db db' db'' : Db F} {models : Models F} {m i : String}

-- Every vector is what the column keeps of the one that model `m` computes for the text of the unit that
-- is stored under its id.
def FreshAt (models : Models F) (m : String) (db : Db F) : Prop :=
  ∀ i vec, db.vec? i = some vec →
    ∃ u, db.units.find? i = some u ∧ vec = F.cast (models.embedding m (unitEmbeddingText u))

-- The same of the model that the index records.
def Fresh (models : Models F) (db : Db F) : Prop :=
  ∀ i vec, db.vec? i = some vec → ∃ m u, db.meta? META_MODEL_KEY = some m ∧
    db.units.find? i = some u ∧ vec = F.cast (models.embedding m (unitEmbeddingText u))

theorem vec?_isSome_embeddings {vec : List F} (h : db.vec? i = some vec) : db.embeddings.isSome := by
  obtain ⟨e, he, _⟩ := vec?_eq_some_iff.mp h
  simp [he]

theorem FreshAt.fresh (h : db.FreshAt models m) (hd : db.Describes m) : db.Fresh models := by
  intro i vec hv
  obtain ⟨u, hu, hvec⟩ := h i vec hv
  exact ⟨m, u, hd.model (vec?_isSome_embeddings hv), hu, hvec⟩

-- A unit with a vector keeps its row, and no unit gets a vector.
structure Keeps (i : String) (db db' : Db F) : Prop where
  row  : db'.units.find? i = db.units.find? i ∨ db'.vec? i = none
  none : db.vec? i = none → db'.vec? i = none

namespace Keeps

theorem refl : db.Keeps i db where
  row  := .inl rfl
  none := id

theorem trans (h : db.Keeps i db') (h' : db'.Keeps i db'') : db.Keeps i db'' where
  row  := by
    obtain hr | hn := h'.row
    case inr => exact .inr hn
    case inl =>
      refine h.row.imp (hr.trans ·) h'.none
  none := h'.none ∘ h.none

theorem of_eq (hu : db'.units.find? i = db.units.find? i) (hv : db'.vec? i = db.vec? i) :
    db.Keeps i db' where
  row    := .inl hu
  none h := hv ▸ h

end Keeps

theorem FreshAt.of_eq (h : db.FreshAt models m) (hu : db'.units = db.units)
    (hv : ∀ i, db'.vec? i = db.vec? i) : db'.FreshAt models m :=
  fun i vec hi => hu ▸ h i vec (hv i ▸ hi)

-- The vector that is stored with a unit is that of its text.
theorem FreshAt.insert {u : UnitRow} {v : List F} (h : db.FreshAt models m)
    (hu : db'.units = db.units.insert u)
    (hv : ∀ i, db'.vec? i = if i = u.id then some (F.cast v) else db.vec? i)
    (he : v = models.embedding m (unitEmbeddingText u)) : db'.FreshAt models m := by
  intro i vec hi
  rw [hv] at hi
  rw [hu, Table.find?_insert, key_unitRow]
  split at hi
  case isTrue hk  => rw [if_pos hk]; cases hi; exact ⟨u, rfl, he ▸ rfl⟩
  case isFalse hk => rw [if_neg hk]; exact h i vec hi

theorem FreshAt.deletes {stale : UnitRow → Bool} (h : db.FreshAt models m)
    (hd : db.Deletes stale db') : db'.FreshAt models m := by
  intro i vec hi
  have hv : db.vec? i = some vec := (hd.vec i).elim (· ▸ hi) fun ⟨_, hn⟩ => by simp [hn] at hi
  obtain ⟨u, hu, he⟩ := h i vec hv
  refine ⟨u, ?_, he⟩
  obtain hs | ⟨hs, hd⟩ := hd.units
  case inl => rw [hs, hu]
  case inr =>
    have hn : ¬db.unitIdWhere stale i := fun hn => by simp [hd, hn] at hi
    rw [hs, Table.find?_delete, hu]
    simpa [Option.filter, unitIdWhere, hu] using hn

theorem Deletes.keeps {stale : UnitRow → Bool} (hd : db.Deletes stale db') : db.Keeps i db' where
  row    := by
    obtain hs | ⟨hs, hd⟩ := hd.units
    case inl => exact .inl (by rw [hs])
    case inr =>
      cases hn : db.unitIdWhere stale i
      case true  => exact .inr (by rw [hd, hn]; rfl)
      case false =>
        left
        rw [hs]
        refine Table.find?_delete_of_not fun u hu hk => ?_
        simpa [unitIdWhere, Table.find?_eq_some_iff.mpr ⟨hu, hk⟩] using hn
  none h := (hd.vec i).elim (·.trans h) (·.right)

-- A vector that does not fit into the table shows that the table has no rows yet.
theorem FreshAt.vec?_of_not_fits {e : Embeddings F} {v : List F} {text : String}
    (h : db.FreshAt models m) (he : db.embeddings = some e) (hv : v = models.embedding m text)
    (hn : ¬e.Fits v) : db.vec? i = none := by
  refine Option.eq_none_iff_forall_not_mem.mpr fun vec hi => hn fun n hw => ?_
  obtain ⟨u, _, hvec⟩ := h i vec hi
  obtain ⟨e', he', r, hr, _, rfl⟩ := vec?_eq_some_iff.mp hi
  cases he.symm.trans he'
  rw [hv, models.length_embedding, ←e.rows_width n hw r hr, hvec, Floats.length_cast,
    models.length_embedding]

end Db

theorem Embedder.Embeds.eq {F : Floats} {embedder : Embedder F} {models : Models F} {text : String}
    {vec : List F} (h : embedder.Embeds text vec) (hc : embedder.Computes models) :
    vec = models.embedding embedder.modelId text := by
  obtain ⟨dim, texts, vectors, ha, _, hz⟩ := h
  rw [hc dim texts vectors ha] at hz
  obtain ⟨k, hk, hz⟩ := List.mem_iff_getElem.mp hz
  simp only [List.getElem_zip, List.getElem_map, Prod.mk.injEq] at hz
  rw [←hz.right, hz.left]

namespace World

open Conn EStateM

variable {F : Floats} {w w' : World F} {models : Models F} {m : String} {embedder : Embedder F}

structure Accurate (models : Models F) (m : String) (w : World F) : Prop extends w.Described m where
  clean : w.dirty = false
  fresh : w.db.FreshAt models m

-- The vectors stay accurate, and the units `A` keep their rows as long as they have a vector.
def accurately (models : Models F) (m : String) (A : Set String) : Rely (World F) where
  rel w w'    := w.Accurate models m → w'.Accurate models m ∧ ∀ i ∈ A, w.db.Keeps i w'.db
  refl _ h    := ⟨h, fun _ _ => .refl⟩
  trans h h' hw :=
    have ⟨hw', hk⟩ := h hw
    have ⟨hw'', hk'⟩ := h' hw'
    ⟨hw'', fun i hi => (hk i hi).trans (hk' i hi)⟩

theorem accurately_mono {A B : Set String} (hb : B ⊆ A) (h : accurately models m A w w') :
    accurately models m B w w' :=
  fun hw => ⟨(h hw).left, fun i hi => (h hw).right i (hb hi)⟩

theorem accurately_of_univ {A : Set String} (h : accurately models m .univ w w') :
    accurately models m A w w' :=
  accurately_mono (Set.subset_univ _) h

private theorem accurately_of_same (hd : w.Described m → w'.Described m) (hc : w'.dirty = w.dirty)
    (hu : w'.db.units = w.db.units) (hv : ∀ i, w'.db.vec? i = w.db.vec? i) :
    accurately models m .univ w w' := fun hw =>
  ⟨⟨hd hw.toDescribed, hc.trans hw.clean, hw.fresh.of_eq hu hv⟩, fun i _ => .of_eq (by rw [hu]) (hv i)⟩

theorem accurately_getUnit {i : String} : accurately models m .univ w (getUnit i w).state := by
  obtain ⟨f, hw⟩ := (getUnit_post (i := i) (w := w)).left
  exact accurately_of_same Described.getUnit (by rw [hw]) (by rw [hw]) fun _ => by rw [hw]

theorem accurately_aembed {texts : List String} :
    accurately models m .univ w (aembed embedder texts w).state := by
  have ⟨f, hw⟩ := (aembed_post : (aembed embedder texts).post _ w).left
  exact accurately_of_same Described.aembed (by rw [hw]) (by rw [hw]) fun _ => by rw [hw]

theorem accurately_ensure :
    accurately models embedder.modelId .univ w (ensureEmbeddingsBound embedder w).state := by
  have hb := (ensureEmbeddingsBound_post : (ensureEmbeddingsBound embedder).post _ w).left
  exact accurately_of_same (·.ensure (.inl rfl)) hb.dirty hb.db.units fun _ => hb.db.vec?

theorem accurately_hasEmbedding {i : String} :
    accurately models embedder.modelId .univ w (hasEmbedding embedder i w).state := by
  have hb := (hasEmbedding_post : (hasEmbedding embedder i).post _ w).left
  exact accurately_of_same (·.hasEmbedding (.inl rfl)) hb.dirty hb.db.units fun _ => hb.db.vec?

theorem accurately_deleteStaleUnits {path : String} {ids : List String} :
    accurately models embedder.modelId .univ w (deleteStaleUnits embedder path ids w).state := by
  intro hw
  obtain ⟨w₁, f, hs, hb, hw', hd, _⟩ :=
    (deleteStaleUnits_post : (deleteStaleUnits embedder path ids).post _ w)
  have ⟨h₁, hk⟩ : (ensureEmbeddingsBound embedder w).state.Accurate models embedder.modelId ∧ _ :=
    accurately_ensure hw
  rw [←hs] at h₁ hk
  refine ⟨⟨hw.toDescribed.deleteStaleUnits (.inl rfl), ?_, h₁.fresh.deletes hd⟩,
    fun i hi => (hk i hi).trans hd.keeps⟩
  rw [hw']
  exact h₁.clean

private theorem upsert_dirty {u : KnowledgeUnit} {vector : Option (List F)} {w₁ : World F}
    {r : Except Exn Unit} (h : Upserts embedder u vector w w₁ r w') : w'.dirty = w.dirty := by
  obtain ⟨f, hw⟩ := h.frame
  rw [hw]
  exact h.binds.dirty

private theorem keeps_upsert {u : KnowledgeUnit} {vector : Option (List F)} {w₁ : World F} {i : String}
    {r : Except Exn Unit} (h : Upserts embedder u vector w w₁ r w') (hi : i ≠ u.id) :
    w.db.Keeps i w'.db := by
  refine .of_eq ?_ ?_
  · rw [←h.binds.db.units]
    obtain hu | hu := h.stores.units
    case inl => rw [hu]
    case inr => rw [hu, Table.find?_insert_of_ne hi]
  · rw [←h.binds.db.vec?]
    obtain hv | ⟨_, v, _, hv⟩ := h.stores.vec
    case inl => rw [hv]
    case inr => rw [hv, if_neg hi]

-- A unit that keeps its vector must keep its text.
theorem accurately_upsertUnit_none (embedder : Embedder F) {u : KnowledgeUnit}
    (hu : ∀ e, w.db.units.find? u.id = some e → (w.db.vec? u.id).isSome →
      unitEmbeddingText e = unitEmbeddingText u.toUnitRow) :
    accurately models embedder.modelId ({u.id} : Set String)ᶜ w (upsertUnit embedder u none w).state := by
  intro hw
  obtain ⟨w₁, h⟩ := (upsertUnit_post : (upsertUnit embedder u none).post _ w)
  refine ⟨⟨hw.toDescribed.upsertUnit (.inl rfl), (upsert_dirty h).trans hw.clean, ?_⟩,
    fun i hi => keeps_upsert h hi⟩
  intro i vec hi
  have hv : w.db.vec? i = some vec := by
    obtain hv | ⟨_, v, hn, _⟩ := h.stores.vec
    case inl => rw [←hi, hv, h.binds.db.vec?]
    case inr => cases hn
  obtain ⟨e, he, hvec⟩ := hw.fresh i vec hv
  rw [←h.binds.db.units] at he
  obtain hs | hs := h.stores.units
  case inl => exact ⟨e, by rw [hs, he], hvec⟩
  case inr =>
    rw [hs, Table.find?_insert, key_unitRow]
    by_cases hk : i = u.id
    case neg => rw [if_neg hk]; exact ⟨e, he, hvec⟩
    case pos =>
      rw [if_pos hk]
      rw [h.binds.db.units, hk] at he
      exact ⟨_, rfl, hvec.trans (by rw [hu e he (by rw [←hk, hv]; rfl)])⟩

theorem accurately_upsertUnit_some {u : KnowledgeUnit} {v : List F}
    (hv : v = models.embedding embedder.modelId (unitEmbeddingText u.toUnitRow)) :
    accurately models embedder.modelId ({u.id} : Set String)ᶜ w
      (upsertUnit embedder u (some v) w).state := by
  intro hw
  obtain ⟨w₁, h⟩ := (upsertUnit_post : (upsertUnit embedder u (some v)).post _ w)
  refine ⟨⟨hw.toDescribed.upsertUnit (.inl rfl), (upsert_dirty h).trans hw.clean, ?_⟩,
    fun i hi => keeps_upsert h hi⟩
  have hf : w₁.db.FreshAt models embedder.modelId :=
    hw.fresh.of_eq h.binds.db.units fun _ => h.binds.db.vec?
  obtain hs | ⟨hs, _, hv', hi⟩ := h.stores.vec
  case inr => cases hv'; exact hf.insert hs hi hv
  obtain hu | hu := h.stores.units
  case inl => exact hf.of_eq hu hs
  obtain hr | hr := h.rejected hw.faultFree
  case inl =>
    exact hf.of_eq (hr.trans h.binds.db.units.symm) hs
  obtain hi | hn := hr v rfl
  case inl => exact hf.insert hu (fun i => by rw [hi, h.binds.db.vec?]) hv
  case inr =>
    -- No row has a vector yet.
    intro i vec hi
    rw [hs] at hi
    obtain ⟨e, he⟩ := Option.isSome_iff_exists.mp (Db.vec?_isSome_embeddings hi)
    simp [hf.vec?_of_not_fits he hv (hn e he)] at hi

end World

namespace IndexStack

open Conn Coroutine World

variable {F : Floats} {models : Models F} {s s' s₀ : World F}

-- The summary of a unit after a call of the summarizer.
def resummarized (stack : IndexStack F) (parsed : KnowledgeUnit) (summary : Option String) :
    Option String :=
  match stack.summarize parsed.rawCode parsed.name with
  | .ok s    => some s
  | .error _ => summary

-- A unit that is stored with a vector and without a summary, and that neither has new code nor gets a
-- summary, still has the text of its vector. Before a re-embedding every unit counts as one with a
-- vector.
def Steady (stack : IndexStack F) (db : Db F) (dirty : Bool) (parsed : KnowledgeUnit) : Prop :=
  ∀ e, db.units.find? parsed.id = some e → dirty ∨ (db.vec? parsed.id).isSome →
    e.codeHash = parsed.codeHash → truthy e.summary = false →
    stack.resummarized parsed e.summary = e.summary → e.fallbackText = parsed.fallbackText

variable {stack : IndexStack F} {force : Bool} {units : List KnowledgeUnit} {identity : String}

theorem answer_or {parsed : KnowledgeUnit} {summary : Option String} (h : s.llmFaults = noFaults) :
    (stack.answer parsed.rawCode parsed.name s).or summary = stack.resummarized parsed summary := by
  unfold answer resummarized
  rw [h, if_neg (by simp [noFaults])]
  cases stack.summarize parsed.rawCode parsed.name <;> rfl

theorem accurately_distill {m : String} {unit : KnowledgeUnit} {existing : Option KnowledgeUnit}
    {code : String} :
    accurately models m .univ s (stack.distillUnitSummary unit existing code s).state := by
  rw [distillUnitSummary_eq]
  intro hw
  refine ⟨⟨hw.toDescribed.of_eq rfl rfl rfl ?_, hw.clean, hw.fresh⟩, fun _ _ => .refl⟩
  rw [hw.llmFaults]
  rfl

-- A unit that is not embedded again has a vector for its text.
theorem Prepared.text_eq {parsed : KnowledgeUnit} {existing : Option KnowledgeUnit}
    {summary : Option String} {hasVec : Bool} {ids : Set String}
    (h : stack.Prepared force s₀
      (fun i => accurately models stack.embedder.modelId ({i} ∩ ids)) parsed existing summary hasVec s)
    (hn : unitNeedsEmbedding (withSummary parsed summary) existing hasVec = false)
    (hs₀ : s₀.Accurate models stack.embedder.modelId) (hi : parsed.id ∈ ids)
    (hst : stack.Steady s₀.db false parsed) :
    ∀ e, s.db.units.find? parsed.id = some e → (s.db.vec? parsed.id).isSome →
      unitEmbeddingText e = unitEmbeddingText (withSummary parsed summary).toUnitRow := by
  intro e he hv
  obtain ⟨h₀, ho₀, h₁, hsum, h₁', h₂, _, h₃⟩ := h
  have hid : parsed.id ∈ ({parsed.id} : Set String) ∩ ids := ⟨rfl, hi⟩
  have ⟨hw₀, hk₀⟩ := h₀ hs₀
  have ⟨hw₁, hk₁⟩ := h₁ hw₀
  have ⟨_, hk₂⟩ := (accurately ..).trans h₁' ((accurately ..).trans h₂ h₃) hw₁
  -- The unit has a vector now, so it had the same row and a vector since the sync started.
  have hrow : ∀ {w : World F}, w.db.Keeps parsed.id s.db →
      w.db.units.find? parsed.id = some e ∧ (w.db.vec? parsed.id).isSome := by
    intro w hk
    refine ⟨(hk.row.resolve_right fun hn => by simp [hn] at hv).symm.trans he, ?_⟩
    by_contra hw
    simp [hk.none (by simpa using hw)] at hv
  have hk := (hk₁ _ hid).trans (hk₂ _ hid)
  have ⟨hr₀, _⟩ := hrow hk
  have ⟨hr, hv₀⟩ := hrow ((hk₀ _ hid).trans hk)
  have hx := getUnit_post.right _ ho₀
  rw [hr₀] at hx
  obtain ⟨x, rfl, rfl⟩ := Option.map_eq_some_iff.mp hx
  obtain ⟨_, ⟨⟩, hc, hsu, _⟩ := unitNeedsEmbedding_eq_false.mp hn
  rw [withSummary_codeHash] at hc
  rw [withSummary_summary] at hsu
  unfold unitEmbeddingText
  rw [withSummary_summary, hsu]
  cases ht : truthy summary
  case true  => rfl
  case false =>
    -- Without a summary the summarizer was asked for one.
    rw [if_neg (by simp), if_neg (by simp)]
    have ht' : truthy x.summary = false := hsu ▸ ht
    refine hst _ hr (.inr hv₀) hc ht' ?_
    cases hsum
    case kept hk => simp [shouldDistillUnit, ht'] at hk
    case distilled ho =>
      rw [distillUnitSummary_eq, EStateM.Result.outcome_ok, Except.ok.injEq] at ho
      exact (answer_or hw₁.llmFaults).symm.trans (ho.trans hsu.symm)

-- What the sync of a file guarantees, and what it relies on.
theorem conduct_accurately (force : Bool) (hc : stack.embedder.Computes models)
    (hs₀ : s₀.Accurate models stack.embedder.modelId)
    (hst : ∀ u ∈ units, stack.Steady s₀.db false u) :
    let ids := {i | i ∈ units.map (·.id)}
    Conduct (accurately models stack.embedder.modelId ids)
      (accurately models stack.embedder.modelId idsᶜ) (accurately models stack.embedder.modelId ∅)
      stack force units identity s₀ (fun i => accurately models stack.embedder.modelId ({i} ∩ ids))
      (· ≠ ·) where
  env _ _ _            := accurately_mono Set.inter_subset_right
  quiet _ _ _          := accurately_mono (Set.empty_subset _)
  own _ _              := accurately_mono (Set.empty_subset _)
  idle s               := (accurately ..).refl s
  get _ _ _            := ⟨accurately_of_univ accurately_getUnit, accurately_of_univ accurately_getUnit⟩
  distill _ _ _ _ _    := ⟨accurately_of_univ accurately_distill, accurately_of_univ accurately_distill⟩
  has _ _ _            :=
    ⟨accurately_of_univ accurately_hasEmbedding, accurately_of_univ accurately_hasEmbedding⟩
  ensure _             := accurately_of_univ accurately_ensure
  embed _ _            := accurately_of_univ accurately_aembed
  upsert u hu e o v s hp hn := by
    have hid : u.id ∈ units.map (·.id) := List.mem_map_of_mem hu
    have ht := Prepared.text_eq hp hn hs₀ hid (hst u hu)
    have h : accurately models stack.embedder.modelId ({u.id} : Set String)ᶜ s _ :=
      accurately_upsertUnit_none (u := withSummary u o) stack.embedder ht
    refine ⟨accurately_mono ?_ h, fun i hi => accurately_mono ?_ h⟩
    · exact Set.compl_subset_compl.mpr (Set.singleton_subset_iff.mpr hid)
    · exact fun j hj => Set.mem_of_eq_of_mem hj.left (Ne.symm hi)
  upsertVec unit vec s hp he := by
    obtain ⟨u, hu, _, _, _, _, rfl, _⟩ := hp
    have hid : u.id ∈ units.map (·.id) := List.mem_map_of_mem hu
    refine accurately_mono ?_ (accurately_upsertUnit_some (he.eq hc))
    exact Set.compl_subset_compl.mpr (Set.singleton_subset_iff.mpr hid)
  delete _ _           := accurately_of_univ accurately_deleteStaleUnits

-- The sync of one file.
theorem accurate_syncFile (force : Bool) {filePath : String} {stored : Option String}
    (hc : stack.embedder.Computes models) (hs₀ : s₀.Accurate models stack.embedder.modelId)
    (hp : ∀ us, stack.parser.distillFile filePath stored false = .ok us →
      (us.map (·.id)).Nodup ∧ ∀ u ∈ us, stack.Steady s₀.db false u) :
    ((stack.syncFile force filePath stored).run s₀).state.Accurate models stack.embedder.modelId := by
  cases hd : stack.parser.distillFile filePath stored false
  case error e =>
    have ⟨h, _⟩ := wp_run <| wp_syncFile_of_error (R := .still) (G := fun s s' => s' = s) (s := s₀)
      force hd fun _ => rfl
    rw [show ((stack.syncFile force filePath stored).run s₀).state = s₀ from h]
    exact hs₀
  case ok us =>
    have ⟨hn, hst⟩ := hp us hd
    have h := wp_run <| (conduct_accurately force hc hs₀ hst).wp_syncFile hd rfl
      (List.pairwise_map.mp hn)
      fun i => (accurately ..).refl s₀
    exact (h.left hs₀).left

-- The ids of the units of a path.
def idsAt (stack : IndexStack F) (path : String) : Set String :=
  {i | ∃ stored units, stack.parsesAt path stored units ∧ i ∈ units.map (·.id)}

theorem idsAt_eq {path : String} {stored : Option String} (h : stack.parsesAt path stored units) :
    stack.idsAt path = {i | i ∈ units.map (·.id)} := by
  ext i
  constructor
  case mp  =>
    rintro ⟨stored', us, h', hi⟩
    exact (parsesAt_unique h h').right ▸ hi
  case mpr => exact fun hi => ⟨stored, units, h, hi⟩

-- The workers, each of which syncs files with units of its own.
theorem accurate_outcome {paths : List String} {n : Nat} {failures : List (String × Exn)}
    (hc : stack.embedder.Computes models) (hs₀ : s₀.Accurate models stack.embedder.modelId)
    (hd : paths.Pairwise fun p q => Disjoint (stack.idsAt p) (stack.idsAt q))
    (hp : ∀ p ∈ paths, ∀ stored us, stack.parsesAt p stored us →
      (us.map (·.id)).Nodup ∧ ∀ u ∈ us, stack.Steady s₀.db false u)
    (h : Pool.Outcome (stack.syncPath force) paths n s₀ failures s) :
    s.Accurate models stack.embedder.modelId := by
  have hpair : paths.Pairwise (Pool.Compatible
      (fun p => accurately models stack.embedder.modelId (stack.idsAt p))
      (fun p => accurately models stack.embedder.modelId (stack.idsAt p)ᶜ)) :=
    hd.imp fun hpq => ⟨fun _ _ => accurately_mono hpq.subset_compl_left,
      fun _ _ => accurately_mono hpq.subset_compl_right⟩
  have hbody : ∀ p ∈ paths, (stack.syncPath force p).wp
      (accurately models stack.embedder.modelId (stack.idsAt p))
      (accurately models stack.embedder.modelId (stack.idsAt p)ᶜ)
      (fun _ s => accurately models stack.embedder.modelId ∅ s₀ s) s₀ := by
    intro p hm
    refine wp_syncPath (fun s => (accurately ..).refl s)
      (fun s' h _ => accurately_mono (Set.empty_subset _) h) fun stored us hpar => ?_
    have ⟨hn, hst⟩ := hp p hm stored us hpar
    rw [idsAt_eq hpar]
    refine wp_mono ((conduct_accurately force hc hs₀ hst).wp_syncFile hpar.right rfl
      (List.pairwise_map.mp hn)
      fun i => (accurately ..).refl s₀) fun _ _ h => h.left
  have hrel := h.rel hpair hbody fun p _ _ _ => accurately_mono (Set.empty_subset _)
  exact (hrel hs₀).left

section Reembed

variable {embedder : Embedder F} {m : String}

-- The units keep their rows, and new vectors are those of the current texts.
def reembedding (models : Models F) (m m' : String) : Rely (World F) where
  rel s s'    := s.Described m ∧ s.db.embeddings.isSome →
    (s'.Described m ∧ s'.db.embeddings.isSome) ∧ (∀ i, s'.db.units.find? i = s.db.units.find? i) ∧
      ∀ i, s'.db.vec? i = s.db.vec? i ∨ ∃ u, s'.db.units.find? i = some u ∧
        s'.db.vec? i = some (F.cast (models.embedding m' (unitEmbeddingText u)))
  refl _ h    := ⟨h, fun _ => rfl, fun _ => .inl rfl⟩
  trans h h' hs := by
    have ⟨hs', hu, hv⟩ := h hs
    have ⟨hs'', hu', hv'⟩ := h' hs'
    refine ⟨hs'', fun i => (hu' i).trans (hu i), fun i => ?_⟩
    obtain hi | hi := hv' i
    case inr => exact .inr hi
    case inl =>
      refine (hv i).imp hi.trans ?_
      exact fun ⟨u, hu, he⟩ => ⟨u, (hu' i).trans hu, hi.trans he⟩

private theorem reembedding_of_same {m' : String} (hd : s.Described m → s'.Described m)
    (he : s'.db.embeddings.isSome = s.db.embeddings.isSome) (hu : s'.db.units = s.db.units)
    (hv : ∀ i, s'.db.vec? i = s.db.vec? i) : reembedding models m m' s s' :=
  fun h => ⟨⟨hd h.left, he ▸ h.right⟩, fun _ => by rw [hu], fun i => .inl (hv i)⟩

-- A unit that is listed is stored as it is.
private theorem reembedding_upsert {u : KnowledgeUnit} {vec : List F}
    (hu : s.db.units.find? u.id = some u.toUnitRow)
    (hv : vec = models.embedding embedder.modelId (unitEmbeddingText u.toUnitRow)) :
    reembedding models m embedder.modelId s (upsertUnit embedder u (some vec) s).state := by
  rintro ⟨hs, he⟩
  obtain ⟨w₁, h⟩ := (upsertUnit_post : (upsertUnit embedder u (some vec)).post _ s)
  have hrow : ∀ i, (upsertUnit embedder u (some vec) s).state.db.units.find? i =
      s.db.units.find? i := by
    intro i
    rw [←h.binds.db.units] at hu ⊢
    obtain hs | hs := h.stores.units <;> rw [hs]
    rw [Table.find?_insert, key_unitRow]
    split
    case isTrue hk => rw [hk, hu]
    case isFalse   => rfl
  refine ⟨⟨hs.upsertUnit (.inr he), ?_⟩, hrow, fun i => ?_⟩
  · rw [h.stores.isSome, h.binds.db.isSome_embeddings he, he]
  · obtain hi | ⟨_, v, hv', hi⟩ := h.stores.vec
    case inl => exact .inl ((hi i).trans h.binds.db.vec?)
    case inr =>
      cases hv'
      rw [hi i]
      by_cases hk : i = u.id
      case neg => rw [if_neg hk]; exact .inl h.binds.db.vec?
      case pos => rw [if_pos hk]; exact .inr ⟨_, by rw [hrow, hk, hu], by rw [hv]⟩

-- Every unit that is listed gets a new vector.
private theorem fresh_embedAndUpsert {us : List KnowledgeUnit} (hc : embedder.Computes models)
    (hs : s.Described m ∧ s.db.embeddings.isSome) (hf : s.db.FreshAt models m)
    (hus : us.map (·.toUnitRow) = s.db.units.rows)
    (h : (embedAndUpsert embedder us).run s = .ok () s') :
    (s'.Described m ∧ s'.db.embeddings.isSome) ∧
      (∀ i, s'.db.units.find? i = s.db.units.find? i) ∧ s'.db.FreshAt models embedder.modelId := by
  have hwp := wp_embedAndUpsert (R := .still) (G := reembedding models m embedder.modelId)
    (S := reembedding models m embedder.modelId) (s := s)
    (J := fun u s => (s.Described m ∧ s.db.embeddings.isSome) ∧
      s.db.units.find? u.id = some u.toUnitRow)
    (fun s s' h => by cases h; exact (reembedding ..).refl _) (fun _ _ => id)
    (fun u s s' ⟨hs, hu⟩ hr => ⟨(hr hs).left, ((hr hs).right.left u.id).trans hu⟩)
    (fun u vec s ⟨_, hu⟩ hv => reembedding_upsert hu (hv.eq hc))
    (fun s hs => by
      have hb := (ensureEmbeddingsBound_post : (ensureEmbeddingsBound embedder).post _ s).left.db
      exact reembedding_of_same (·.ensure (.inr hs.right)) (by rw [hb.isSome_embeddings hs.right])
        hb.units (fun _ => hb.vec?) hs)
    (fun texts s => by
      have ⟨f, hw⟩ := (aembed_post : (aembed embedder texts).post _ s).left
      exact reembedding_of_same Described.aembed (by rw [hw]) (by rw [hw]) fun _ => by rw [hw])
    (fun u hu => ⟨hs, Table.find?_of_mem (Table.mem_rows.mp (hus ▸ List.mem_map_of_mem hu))⟩)
  have hrun := wp_run hwp
  rw [h, EStateM.Result.state_ok] at hrun
  obtain ⟨hrel, hemb⟩ := hrun
  have ⟨hs', hu', hv'⟩ := hrel hs
  refine ⟨hs', hu', fun i vec hi => ?_⟩
  suffices ∃ u, s'.db.units.find? i = some u ∧
      s'.db.vec? i = some (F.cast (models.embedding embedder.modelId (unitEmbeddingText u))) by
    obtain ⟨u, hu, hv⟩ := this
    exact ⟨u, hu, by simpa [hi] using hv⟩
  obtain hv | hnew := hv' i
  case inr => exact hnew
  -- The unit of a vector was listed.
  obtain ⟨u, hu, _⟩ := hf i vec (hv ▸ hi)
  have hm := Table.mem_rows.mpr (Table.mem_of_find? hu)
  rw [←hus] at hm
  obtain ⟨k, hk, rfl⟩ := List.mem_map.mp hm
  obtain rfl : k.id = i := Table.key_of_find? hu
  obtain ⟨v, t, ⟨hj, hrow⟩, hev, ho, ht⟩ := hemb rfl k hk
  have ⟨hj', hrow', _⟩ := reembedding_upsert (m := m) hrow (hev.eq hc) hj
  have ⟨_, hu₂, hv₂⟩ := ht hj'
  obtain ⟨w₁, hx⟩ := (upsertUnit_post : (upsertUnit embedder k (some v)).post _ t)
  have hvk := (hx.ok ho).right v rfl k.id
  rw [if_pos rfl] at hvk
  obtain hv₂ | hnew := hv₂ k.id
  case inr => exact hnew
  exact ⟨k.toUnitRow, (hu₂ k.id).trans ((hrow' k.id).trans hrow), by rw [hv₂, hvk, hev.eq hc]⟩

-- After a re-embedding all vectors are those of the new model.
theorem accurate_reembed (hc : embedder.Computes models) (hs : s.Described m)
    (he : s.db.embeddings.isSome) (hf : s.db.FreshAt models m)
    (h : (reembedAllUnits embedder).run s = .ok () s') :
    s'.Accurate models embedder.modelId ∧ ∀ i, s'.db.units.find? i = s.db.units.find? i := by
  unfold reembedAllUnits at h
  rw [run_bind, run_call] at h
  rw [EStateM.bind_of_ok (show listUnits s = _ from select_of_faultFree hs.faultFree), run_bind] at h
  obtain ⟨_, s₂, h₂, h⟩ | ⟨_, _, _, h⟩ := EStateM.bind_cases h
  case inr => cases h
  have ⟨⟨hd₂, he₂⟩, hu₂, hf₂⟩ := fresh_embedAndUpsert hc ⟨hs, he⟩ hf
    (by rw [List.map_map]; exact List.map_id _) h₂
  -- At last the model of the vectors is recorded.
  rw [run_call, markEmbeddingModelSynced, EStateM.bind_of_ok (metaSet_of_ready hd₂.toReady)] at h
  cases h
  have hi := hd₂.indexMeta
  refine ⟨{
    faultFree := hd₂.faultFree
    mode      := hd₂.mode
    indexMeta := by simpa using hi
    llmFaults := hd₂.llmFaults
    describes := ⟨fun _ => by rw [Db.meta?_setMeta hi, if_pos rfl], fun _ => ?_, fun hn => ?_⟩
    clean     := rfl
    fresh     := hf₂ }, hu₂⟩
  · rw [Db.meta?_setMeta hi, if_neg (by decide)]
    exact hd₂.describes.dim he₂
  · simp [show s₂.db.embeddings = none from hn] at he₂

end Reembed
end IndexStack

namespace Session

open World IndexStack Conn

variable {F : Floats} {models : Models F} {s s' : Session F} {a : Request F} {r : Reply}

-- The syncs of a project, all of which succeed. The index is opened for writing with an embedder that
-- computes the vectors of its model, and the ids of one file differ.
def Syncs (models : Models F) (_ : Session F) (a : Request F) (r : Reply) : Prop :=
  r = .ok [] ∧
    match a with
    | .reopen embedder mode _ _ faults llmFaults =>
      embedder.Computes models ∧ mode = .readWrite ∧ faults = noFaults ∧ llmFaults = noFaults
    | .syncFile stack _ filePath stored          => ∀ us,
      stack.parser.distillFile filePath stored false = .ok us → (us.map (·.id)).Nodup
    | .syncProject stack paths _ _ _             =>
      ∀ p ∈ paths, ∀ stored us, stack.parsesAt p stored us → (us.map (·.id)).Nodup
    | .runSync .. | .search ..                   => False

-- No unit without a summary gets a new text by an edit that keeps its hash, and the files of one sync
-- have different units.
def Steady (s : Session F) : Request F → Prop
  | .syncFile stack _ filePath stored   => ∀ us,
    stack.parser.distillFile filePath stored false = .ok us →
      ∀ u ∈ us, stack.Steady s.world.db s.world.dirty u
  | .syncProject stack paths _ _ _      =>
    paths.Pairwise (fun p q => Disjoint (stack.idsAt p) (stack.idsAt q)) ∧
      ∀ p ∈ paths, ∀ stored us, stack.parsesAt p stored us →
        ∀ u ∈ us, stack.Steady s.world.db s.world.dirty u
  | .reopen .. | .runSync .. | .search .. => True

-- In a session whose model is not that of the vectors, these are accurate for the model that the index
-- records.
structure Accurate (models : Models F) (s : Session F) : Prop where
  computes : s.embedder.Computes models
  saved    : s.world.saved = none
  vectors  : s.world.Accurate models s.embedder.modelId ∨ s.world.dirty ∧
    s.world.db.embeddings.isSome ∧ ∃ m, s.world.Described m ∧ s.world.db.FreshAt models m

theorem Accurate.describes (h : s.Accurate models) :
    ∃ m, s.world.Described m ∧ s.world.db.FreshAt models m := by
  obtain hv | ⟨_, _, hv⟩ := h.vectors
  case inl => exact ⟨_, hv.toDescribed, hv.fresh⟩
  case inr => exact hv

theorem Accurate.fresh (h : s.Accurate models) : s.world.db.Fresh models :=
  have ⟨_, hd, hf⟩ := h.describes
  hf.fresh hd.describes

private theorem accurate_opened (db : Db F) {embedder : Embedder F} {wipe : Bool}
    {dimension : Option Nat} {m : String} (hc : embedder.Computes models)
    (hi : db.indexMeta.isSome) (hd : db.Describes m) (hf : db.FreshAt models m) :
    Accurate models {
      embedder := embedder
      world    := { World.connect db .readWrite dimension noFaults noFaults with
        dirty       := db.isDirty embedder.modelId
        pendingWipe := wipe } } where
  computes := hc
  saved    := rfl
  vectors  := by
    have hready : (World.connect db .readWrite dimension noFaults noFaults).Ready := ⟨rfl, rfl, hi⟩
    cases he : db.embeddings.isSome
    case false =>
      have he : db.embeddings = none := by simpa using he
      refine .inl ⟨⟨⟨rfl, rfl, hi⟩, rfl, .of_none he (hd.noModel he)⟩, by simp [Db.isDirty, he], ?_⟩
      exact fun i vec hv => by simp [connect, Db.vec?, he] at hv
    case true =>
      have hm := hd.model he
      by_cases hk : m = embedder.modelId
      case pos =>
        subst hk
        exact .inl ⟨⟨⟨rfl, rfl, hi⟩, rfl, hd⟩, by simp [Db.isDirty, hm], hf⟩
      case neg =>
        exact .inr ⟨by simp [Db.isDirty, hm, he, hk], he, m, ⟨⟨rfl, rfl, hi⟩, rfl, hd⟩, hf⟩

-- Opening an index keeps its vectors or drops all of them.
theorem accurate_reopen {db : Db F} {embedder : Embedder F} {wipe : Bool} {dimension : Option Nat}
    {m : String} (hc : embedder.Computes models) (hd : db.Describes m) (hf : db.FreshAt models m) :
    Accurate models { embedder := embedder, world := .opened embedder db wipe dimension noFaults } := by
  cases wipe
  case false =>
    exact accurate_opened db.ensureMeta hc rfl (hd.congr rfl fun _ => Db.meta?_ensureMeta) hf
  case true =>
    refine accurate_opened db.ensureMeta.wipe (m := m) hc rfl (.of_none rfl ?_) ?_
    · rw [Db.meta?_wipe, if_pos (by simp)]
    · exact fun i vec hv => by simp [Db.vec?] at hv

private theorem accurate_syncFile_step {stack : IndexStack F} {force : Bool} {filePath : String}
    {stored : Option String} {w : World F} (h : s.Accurate models) (he : stack.embedder = s.embedder)
    (hn : ∀ us, stack.parser.distillFile filePath stored false = .ok us → (us.map (·.id)).Nodup)
    (hst : ∀ us, stack.parser.distillFile filePath stored false = .ok us →
      ∀ u ∈ us, stack.Steady s.world.db s.world.dirty u)
    (hr : (stack.syncFile force filePath stored).run s.world = .ok () w) :
    Accurate models { s with world := w } := by
  have hg : guarded s.world ((stack.syncFile force filePath stored).run s.world).state := syncFile_guarded
  rw [hr] at hg
  refine ⟨h.computes, hg.left.trans h.saved, .inl ?_⟩
  obtain hv | ⟨hd, _⟩ := h.vectors
  case inl =>
    rw [hv.clean] at hst
    have := accurate_syncFile force (he ▸ h.computes) (he ▸ hv)
      fun us hus => ⟨hn us hus, hst us hus⟩
    rw [hr] at this
    exact he ▸ this
  case inr =>
    -- Only a sync of all files may start with the vectors of another model.
    unfold syncFile at hr
    rw [Coroutine.run_bind, Coroutine.run_call,
      EStateM.bind_of_error (show rejectDirtyIncremental s.world = .error dirtyError s.world by
        simp [rejectDirtyIncremental, hd])] at hr
    cases hr

private theorem accurate_syncProject_step {stack : IndexStack F} {paths : List String}
    {force indexAll : Bool} {n : Nat} {failures : List (String × String)} {w : World F}
    (h : s.Accurate models) (he : stack.embedder = s.embedder)
    (hn : ∀ p ∈ paths, ∀ stored us, stack.parsesAt p stored us → (us.map (·.id)).Nodup)
    (hd : paths.Pairwise fun p q => Disjoint (stack.idsAt p) (stack.idsAt q))
    (hst : ∀ p ∈ paths, ∀ stored us, stack.parsesAt p stored us →
      ∀ u ∈ us, stack.Steady s.world.db s.world.dirty u)
    (hr : stack.SyncProject paths force indexAll n s.world (.ok failures) w) :
    Accurate models { s with world := w } := by
  refine ⟨h.computes, (syncProject_guarded hr).left.trans h.saved, .inl ?_⟩
  have hc : stack.embedder.Computes models := he ▸ h.computes
  cases hr
  case returned w₁ fs hre hp =>
    suffices w₁.Accurate models stack.embedder.modelId ∧
        ∀ u, stack.Steady s.world.db s.world.dirty u → stack.Steady w₁.db false u by
      rw [←he]
      exact accurate_outcome hc this.left hd (fun p hp stored us hpar =>
        ⟨hn p hp stored us hpar, fun u hu => this.right u (hst p hp stored us hpar u hu)⟩) hp
    obtain ⟨hclean, rfl⟩ | ⟨hdirty, _, hrun⟩ := reembedIfDirty_cases hre
    case inl =>
      refine ⟨?_, fun u hu => hclean ▸ hu⟩
      exact he ▸ h.vectors.resolve_right fun hv => by simp [hv.left] at hclean
    case inr =>
      obtain hv | ⟨_, hemb, m, hm, hf⟩ := h.vectors
      case inl => simp [hv.clean] at hdirty
      have ⟨ha, hu⟩ := accurate_reembed hc hm hemb hf hrun
      refine ⟨ha, fun u hst e hfind _ => ?_⟩
      exact hst e (hu u.id ▸ hfind) (.inl hdirty)

theorem Accurate.step (h : s.Accurate models) (hp : s.Syncs models a r) (hq : s.Steady a)
    (hs : s.Step a r s') : s'.Accurate models := by
  obtain ⟨hr, hp⟩ := hp
  cases hs
  case reopen =>
    obtain ⟨hc, rfl, rfl, rfl⟩ := hp
    have ⟨_, hd, hf⟩ := h.describes
    subst_vars
    rw [openDbConnection_eq, committed_eq h.saved]
    exact accurate_reopen hc hd.describes hf
  case syncFile stack force filePath stored r' he hr' =>
    cases r'
    case error => cases hr
    exact accurate_syncFile_step h he hp hq hr'
  case syncProject stack paths force indexAll n w he hr' =>
    subst hr
    exact accurate_syncProject_step h he hp hq.left hq.right hr'
  case runSync => exact hp.elim
  case search  => exact hp.elim

-- As long as all syncs are steady, every vector is that of the text of its unit.
theorem fresh_of_steady (h : Reachable (fun s a r => s.Syncs models a r ∧ s.Steady a) s) :
    s.world.db.Fresh models := by
  refine Accurate.fresh (h.invariant ?_ fun s s' a r hi hp hs => hi.step hp.left hp.right hs)
  rintro s s' a r hdb ha ⟨⟨_, hp⟩, _⟩ hs
  cases hs <;> try exact ha.elim
  case reopen =>
    obtain ⟨hc, rfl, rfl, rfl⟩ := hp
    subst_vars
    rw [openDbConnection_eq, hdb]
    exact accurate_reopen (m := "") hc (.of_none rfl rfl) fun i vec hv => by simp [Db.vec?, Db.empty] at hv

section Sample

-- A file for whose unit the summarizer has nothing to say.
private def file (model content : String) : IndexStack naturals :=
  Sample.stack model [("a.py", content)] "" none

-- The next session.
private def opened (w : World naturals) (model : String) : Session naturals where
  embedder := Sample.embedder model
  world    := .opened (Sample.embedder model) w.committed false none noFaults

private def sync (s : Session naturals) (content : String) : Session naturals :=
  { s with world := (((file "m" content).syncFile false "a.py" none).run s.world).state }

private def before : World naturals :=
  .connect .empty .readWrite none noFaults noFaults

private def first : Session naturals :=
  sync (opened before "m") "#a\nf=1"

private def second : Session naturals :=
  sync first "#ab\nf=1"

-- The file is synced again as it is, and then with another model.
private def again : Session naturals :=
  sync first "#a\nf=1"

private def reembedded : World naturals :=
  ((file "n" "#a\nf=1").reembedIfDirty true (opened again.world "n").world).state

private def replaced : Session naturals where
  embedder := Sample.embedder "n"
  world    := (Sample.worked (file "n" "#a\nf=1") ["a.py"] reembedded).2

private theorem reachable_opened {P : Session naturals → Request naturals → Reply → Prop}
    (h : ∀ s, P s (.reopen (Sample.embedder "m") .readWrite false none noFaults noFaults) (.ok [])) :
    Reachable P (opened before "m") :=
  .start (s := ⟨Sample.embedder "m", before⟩)
    (a := .reopen (Sample.embedder "m") .readWrite false none noFaults noFaults) rfl trivial (h _)
    (.reopen openDbConnection_eq)

private theorem syncs_opened {s : Session naturals} {model : String} : s.Syncs Sample.models
    (.reopen (Sample.embedder model) .readWrite false none noFaults noFaults) (.ok []) :=
  ⟨rfl, Sample.embedder_computes, rfl, rfl, rfl⟩

private theorem syncs_file {s : Session naturals} {content : String}
    (hi : ((file "m" content).parser.distillFile "a.py" none false).map (·.map (·.id)) = .ok ["a.py:f"])
    (hr : (((file "m" content).syncFile false "a.py" none).run s.world).outcome = .ok ()) :
    s.Syncs Sample.models (.syncFile (file "m" content) false "a.py" none)
      (((file "m" content).syncFile false "a.py" none).run s.world).reply := by
  refine ⟨by rw [EStateM.Result.reply, hr]; rfl, fun us h => ?_⟩
  rw [Sample.ids_eq h hi]
  decide

private theorem syncs_first : (opened before "m").Syncs Sample.models
    (.syncFile (file "m" "#a\nf=1") false "a.py" none)
    (((file "m" "#a\nf=1").syncFile false "a.py" none).run (opened before "m").world).reply :=
  syncs_file (by decide +kernel) (by decide +kernel)

-- The units of the file, with their ids and the texts that they have without a summary.
private theorem texts_of_parsed {model : String} {us : List KnowledgeUnit}
    (h : (file model "#a\nf=1").parser.distillFile "a.py" none false = .ok us) :
    us.map (fun u => (u.id, u.fallbackText)) = [("a.py:f", "function f 1 a")] := by
  have hd : ((file model "#a\nf=1").parser.distillFile "a.py" none false).map
      (·.map fun u => (u.id, u.fallbackText)) = .ok [("a.py:f", "function f 1 a")] := by
    show ((file "m" "#a\nf=1").parser.distillFile "a.py" none false).map _ = _
    decide +kernel
  rw [h] at hd
  exact Except.ok.inj hd

-- The text of the unit is the one that it is stored with.
private theorem steady_of_stored {model : String} {us : List KnowledgeUnit} {db : Db naturals} {dirty : Bool}
    (h : (file model "#a\nf=1").parser.distillFile "a.py" none false = .ok us)
    (hd : (db.units.find? "a.py:f").map (·.fallbackText) = some "function f 1 a") :
    ∀ u ∈ us, (file model "#a\nf=1").Steady db dirty u := by
  intro u hu e he _ _ _ _
  have hm : (u.id, u.fallbackText) ∈ [("a.py:f", "function f 1 a")] :=
    texts_of_parsed h ▸ List.mem_map_of_mem (f := fun u : KnowledgeUnit => (u.id, u.fallbackText)) hu
  obtain ⟨hi, ht⟩ := Prod.mk.inj (List.mem_singleton.mp hm)
  rw [←hi, he] at hd
  exact (Option.some.inj hd).trans ht.symm

private theorem reachable_again {s : Session naturals}
    (h : Reachable (fun s a r => s.Syncs Sample.models a r ∧ s.Steady a) s) (he : s.embedder = Sample.embedder "m")
    (hr : (((file "m" "#a\nf=1").syncFile false "a.py" none).run s.world).outcome = .ok ())
    (hd : (s.world.db.units.find? "a.py:f").map (·.fallbackText) = some "function f 1 a") :
    Reachable (fun s a r => s.Syncs Sample.models a r ∧ s.Steady a) (sync s "#a\nf=1") :=
  .step h ⟨syncs_file (by decide +kernel) hr, fun us hus => steady_of_stored hus hd⟩ (.syncFile he.symm rfl)

private theorem reachable_replaced {s : Session naturals}
    (h : Reachable (fun s a r => s.Syncs Sample.models a r ∧ s.Steady a) s)
    (hre : ((file "n" "#a\nf=1").reembedIfDirty true (opened s.world "n").world).outcome = .ok ())
    (hw : (Sample.worked (file "n" "#a\nf=1") ["a.py"]
      ((file "n" "#a\nf=1").reembedIfDirty true (opened s.world "n").world).state).1 = [])
    (hd : ((opened s.world "n").world.db.units.find? "a.py:f").map (·.fallbackText) = some "function f 1 a") :
    Reachable (fun s a r => s.Syncs Sample.models a r ∧ s.Steady a)
      ⟨Sample.embedder "n", (Sample.worked (file "n" "#a\nf=1") ["a.py"]
        ((file "n" "#a\nf=1").reembedIfDirty true (opened s.world "n").world).state).2⟩ := by
  have hopen : Reachable (fun s a r => s.Syncs Sample.models a r ∧ s.Steady a) (opened s.world "n") :=
    .step h ⟨syncs_opened, trivial⟩ (.reopen openDbConnection_eq)
  have hsync : (file "n" "#a\nf=1").SyncProject ["a.py"] false true 1 _ _ _ :=
    Sample.syncProject_worked (EStateM.eq_ok_of_outcome hre)
  rw [hw] at hsync
  have hparse : ∀ p ∈ ["a.py"], ∀ stored us, (file "n" "#a\nf=1").parsesAt p stored us →
      (file "n" "#a\nf=1").parser.distillFile "a.py" none false = .ok us := by
    rintro p hp stored us ⟨hstored, hus⟩
    obtain rfl := List.mem_singleton.mp hp
    cases hstored
    exact hus
  have hstep : Step (opened s.world "n") (.syncProject (file "n" "#a\nf=1") ["a.py"] false true 1) (.ok [])
      { opened s.world "n" with world := _ } := .syncProject rfl hsync
  refine .step hopen ?_ hstep
  refine ⟨⟨rfl, fun p hp stored us hpar => ?_⟩, List.pairwise_singleton _ _,
    fun p hp stored us hpar => steady_of_stored (hparse p hp stored us hpar) hd⟩
  have ht := congrArg (List.map Prod.fst) (texts_of_parsed (hparse p hp stored us hpar))
  rw [List.map_map] at ht
  exact (show us.map (·.id) = ["a.py:f"] from ht) ▸ List.nodup_singleton _

-- The second sync embeds nothing, and the sync with another model replaces the vector.
theorem fresh_of_steady_sample :
    again.world.calls.drop first.world.calls.length = [.summarize "1" "f" (some "")] ∧
      again.world.db.vec? "a.py:f" = some (Sample.models.embedding "m" "function f 1 a") ∧
      replaced.world.db.vec? "a.py:f" = some (Sample.models.embedding "n" "function f 1 a") ∧
      again.world.db.Fresh Sample.models ∧ replaced.world.db.Fresh Sample.models := by
  have hfirst : Reachable (fun s a r => s.Syncs Sample.models a r ∧ s.Steady a) first :=
    .step (reachable_opened fun _ => ⟨syncs_opened, trivial⟩)
      ⟨syncs_first, fun _ _ _ _ _ he => nomatch he⟩ (.syncFile rfl rfl)
  have hagain : Reachable (fun s a r => s.Syncs Sample.models a r ∧ s.Steady a) again :=
    reachable_again hfirst rfl (by decide +kernel) (by decide +kernel)
  have hreplaced : Reachable (fun s a r => s.Syncs Sample.models a r ∧ s.Steady a) replaced :=
    reachable_replaced hagain (by decide +kernel) (by decide +kernel) (by decide +kernel)
  exact ⟨by decide +kernel, by decide +kernel, by decide +kernel, fresh_of_steady hagain,
    fresh_of_steady hreplaced⟩

-- A comment above a function is not part of its hash. When it is edited, a unit without a summary
-- keeps the vector of the old text.
theorem not_fresh : ¬∀ (models : Models naturals) (s : Session naturals), Reachable (Syncs models) s →
    s.world.db.Fresh models := by
  intro h
  have hf := h Sample.models second <| .step
    (.step (reachable_opened fun _ => syncs_opened) syncs_first (.syncFile rfl rfl))
    (syncs_file (by decide +kernel) (by decide +kernel)) (.syncFile rfl rfl)
  obtain ⟨m, u, hm, hu, hv⟩ := hf "a.py:f" [14 + 109] (by decide +kernel)
  have hm' : second.world.db.meta? META_MODEL_KEY = some "m" := by decide +kernel
  have ht : (second.world.db.units.find? "a.py:f").map unitEmbeddingText =
      some "function f 1 ab" := by decide +kernel
  rw [hm', Option.some.injEq] at hm
  rw [hu, Option.map_some, Option.some.injEq] at ht
  rw [ht, ←hm] at hv
  exact absurd hv (by decide)

end Sample
end Session
