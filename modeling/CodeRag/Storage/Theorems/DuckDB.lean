import CodeRag.Storage.DuckDB
import CodeRag.Storage.Theorems.Bind
import CodeRag.Storage.Theorems.Faults

-- What the operations of an open storage do, whichever of their statements fail.

namespace Db

variable {F : Floats} {db db' db'' : Db F} {u : UnitRow} {vector : Option (List F)}
variable {rels : List Relation} {stale : UnitRow → Bool} {i : String} {p : String → Bool}

theorem vec?_insert {e : Embeddings F} {r : VecRow F} {h : e.Fits r.vec} (he : db.embeddings = some e) :
    { db with embeddings := some (e.insert r h) }.vec? i = if i = r.id then some r.vec else db.vec? i := by
  simp only [vec?, he, Option.bind_some, Embeddings.insert_rows, Table.find?_insert, key_vecRow]
  split <;> rfl

theorem vec?_deleteVectors : (db.deleteVectors p).vec? i = if p i then none else db.vec? i := by
  unfold vec? deleteVectors
  cases db.embeddings
  case none => simp
  case some e =>
    simp only [Option.map_some, Option.bind_some, Embeddings.delete_rows, Table.find?_delete]
    cases h : e.rows.find? i
    case none => simp
    case some r =>
      have hi : r.id = i := Table.key_of_find? h
      cases hp : p i <;> simp [hi, hp, Option.filter]

-- What storing a unit may change. Its vector is written after its row.
structure Stores (u : UnitRow) (vector : Option (List F)) (rels : List Relation) (db db' : Db F) :
    Prop where
  units        : db'.units = db.units ∨ db'.units = db.units.insert u
  vec          : (∀ i, db'.vec? i = db.vec? i) ∨ db'.units = db.units.insert u ∧
    ∃ v, vector = some v ∧ ∀ i, db'.vec? i = if i = u.id then some (F.cast v) else db.vec? i
  kept         : ∀ r ∈ db.relations, r ∈ db'.relations
  relations    : ∀ r ∈ db'.relations, r ∈ db.relations ∨ r ∈ rels
  dependencies : db'.dependencies = db.dependencies
  indexMeta    : db'.indexMeta = db.indexMeta
  isSome       : db'.embeddings.isSome = db.embeddings.isSome
  width        : db'.width? = db.width?

namespace Stores

theorem refl : db.Stores u vector rels db where
  units        := .inl rfl
  vec          := .inl fun _ => rfl
  kept         := fun _ => id
  relations    := fun _ => .inl
  dependencies := rfl
  indexMeta    := rfl
  isSome       := rfl
  width        := rfl

theorem insertUnit : db.Stores u vector rels (db.insertUnit u) :=
  { (refl : db.Stores u vector rels db) with units := .inr rfl, vec := .inl fun _ => rfl }

theorem insertVector {e : Embeddings F} {v : List F} {h : e.Fits (F.cast v)}
    (hs : db.Stores u (some v) rels db')
    (hu : db'.units = db.units.insert u) (hv : ∀ i, db'.vec? i = db.vec? i)
    (he : db'.embeddings = some e) :
    db.Stores u (some v) rels
      { db' with embeddings := some (e.insert { id := u.id, vec := F.cast v } h) } :=
  { hs with
    vec    := .inr ⟨hu, v, rfl, fun i => by rw [vec?_insert he, hv i]⟩
    isSome := by rw [←hs.isSome, he]; rfl
    width  := by rw [←hs.width, width?, width?, he]; rfl }

theorem insertRelation {r : Relation} (hs : db.Stores u vector rels db') (hr : r ∈ rels) :
    db.Stores u vector rels (db'.insertRelation r) :=
  { hs with
    kept      := fun r' hr' => by
      by_cases he : r' = r
      · exact Table.mem_insert.mpr (.inl he)
      · exact Table.mem_insert.mpr (.inr ⟨hs.kept r' hr', he⟩)
    relations := fun r' hr' => by
      obtain rfl | ⟨hr', _⟩ := Table.mem_insert.mp hr'
      · exact .inr hr
      · exact hs.relations r' hr' }

end Stores

-- What deleting stale units may change. Their rows are deleted last.
structure Deletes (stale : UnitRow → Bool) (db db' : Db F) : Prop where
  units        : db'.units = db.units ∨ db'.units = db.units.delete stale ∧
    ∀ i, db'.vec? i = if db.unitIdWhere stale i then none else db.vec? i
  vec          : ∀ i, db'.vec? i = db.vec? i ∨ db.unitIdWhere stale i ∧ db'.vec? i = none
  relations    : ∀ r ∈ db'.relations, r ∈ db.relations
  kept         : ∀ r ∈ db.relations, db.unitIdWhere stale r.fromId = false → r ∈ db'.relations
  dependencies : db'.dependencies = db.dependencies
  indexMeta    : db'.indexMeta = db.indexMeta
  isSome       : db'.embeddings.isSome = db.embeddings.isSome
  width        : db'.width? = db.width?

namespace Deletes

theorem refl : db.Deletes stale db where
  units        := .inl rfl
  vec          := fun _ => .inl rfl
  relations    := fun _ => id
  kept         := fun _ h _ => h
  dependencies := rfl
  indexMeta    := rfl
  isSome       := rfl
  width        := rfl

theorem deleteVectors : db.Deletes stale (db.deleteVectors (db.unitIdWhere stale)) :=
  { (refl : db.Deletes stale db) with
    units  := .inl rfl
    vec    := fun i => by
      rw [vec?_deleteVectors]
      cases db.unitIdWhere stale i <;> simp
    isSome := by simp [Db.deleteVectors]
    width  := by
      unfold width? Db.deleteVectors
      cases db.embeddings <;> rfl }

theorem deleteRelations (hd : db.Deletes stale db') (hu : db'.units = db.units) :
    db.Deletes stale (db'.deleteRelations (db'.unitIdWhere stale ·.fromId)) := by
  have hw : db'.unitIdWhere stale = db.unitIdWhere stale := by
    funext i
    simp only [unitIdWhere, hu]
  exact { hd with
    relations := fun r hr => hd.relations r (Table.mem_delete.mp hr).left
    kept      := fun r hr hf => Table.mem_delete.mpr ⟨hd.kept r hr hf, by rw [hw]; exact hf⟩ }

theorem deleteUnits (hd : db.Deletes stale db') (hu : db'.units = db.units)
    (hv : ∀ i, db'.vec? i = if db.unitIdWhere stale i then none else db.vec? i) :
    db.Deletes stale (db'.deleteUnits stale) :=
  { hd with units := .inr ⟨by rw [←hu]; rfl, hv⟩ }

end Deletes

-- The tables hold the same units, vectors and relations.
structure SameTables (db db' : Db F) : Prop where
  units     : ∀ row, row ∈ db'.units ↔ row ∈ db.units
  vec       : ∀ i, db'.vec? i = db.vec? i
  relations : ∀ r, r ∈ db'.relations ↔ r ∈ db.relations

theorem SameTables.refl : db.SameTables db :=
  ⟨fun _ => .rfl, fun _ => rfl, fun _ => .rfl⟩

theorem SameTables.trans (h : db.SameTables db') (h' : db'.SameTables db'') : db.SameTables db'' where
  units row   := (h'.units row).trans (h.units row)
  vec i       := (h'.vec i).trans (h.vec i)
  relations r := (h'.relations r).trans (h.relations r)

theorem SameTables.find? (h : db.SameTables db') (i : String) :
    db'.units.find? i = db.units.find? i :=
  Table.find?_eq_of_mem_iff h.units i

theorem Binds.same {m : String} (h : Binds m db db') : db.SameTables db' where
  units _     := by rw [h.units]
  vec _       := h.vec?
  relations _ := by rw [h.relations]

-- A row that is stored again.
theorem Stores.same {row : UnitRow} (h : db.Stores row none [] db')
    (hf : db.units.find? row.id = some row) : db.SameTables db' where
  units r := by
    obtain hu | hu := h.units
    · rw [hu]
    · rw [hu, Table.mem_insert_of_mem (Table.mem_of_find? hf)]
  vec i := by
    obtain hv | ⟨_, v, hv, _⟩ := h.vec
    · exact hv i
    · cases hv
  relations r := ⟨fun hr => (h.relations r hr).resolve_right List.not_mem_nil, h.kept r⟩

theorem Deletes.same {stale : UnitRow → Bool} (h : db.Deletes stale db')
    (hn : ∀ row ∈ db.units, stale row = false) : db.SameTables db' := by
  have hnone : ∀ i, db.unitIdWhere stale i = false := by
    intro i
    cases hf : db.units.find? i
    case none     => simp [unitIdWhere, hf]
    case some row => simp [unitIdWhere, hf, hn row (Table.mem_of_find? hf)]
  refine ⟨fun row => ?_, fun i => ?_, fun r => ⟨h.relations r, fun hr => h.kept r hr (hnone _)⟩⟩
  · obtain hu | ⟨hu, _⟩ := h.units
    · rw [hu]
    · rw [hu, Table.mem_delete]
      exact ⟨And.left, fun hr => ⟨hr, hn row hr⟩⟩
  · exact (h.vec i).resolve_right fun hc => by simp [hnone] at hc

end Db

namespace Conn

open EStateM World

variable {F : Floats} {w : World F} {embedder : Embedder F} {i : String} {u : KnowledgeUnit}
variable {vector : Option (List F)}

theorem getRelations_post : (getRelations i).post (fun _ w' => w.Reads w') w :=
  post_mono select_post fun _ _ h => h.left

theorem getUnit_post : (getUnit i).post
    (fun r w' => w.Reads w' ∧ ∀ a, r = .ok a → a.map (·.toUnitRow) = w.db.units.find? i) w := by
  refine post_bind select_post ?_ fun _ _ h => ⟨h.left, nofun⟩
  rintro a _ ⟨⟨f, rfl⟩, ha⟩
  have ha := ha a rfl
  split
  case h_1 => exact post_pure ⟨⟨_, rfl⟩, fun a h => by cases h; exact ha⟩
  case h_2 row =>
    refine post_bind getRelations_post ?_ fun _ _ h => ⟨.trans ⟨_, rfl⟩ h, nofun⟩
    rintro rels _ ⟨f', rfl⟩
    exact post_pure ⟨⟨_, rfl⟩, fun a h => by cases h; exact ha⟩

theorem hasEmbedding_post : (hasEmbedding embedder i).post
    (fun r w' => w.Binds embedder.modelId w' ∧ ∀ b, r = .ok b → b = (w.db.vec? i).isSome) w := by
  refine post_bind ensureEmbeddingsBound_post (fun _ w₁ ⟨h, _⟩ => ?_) fun _ _ h => ⟨h.left, nofun⟩
  refine post_mono select_post ?_
  rintro r w₂ ⟨hr, hb⟩
  exact ⟨h.reads hr, fun b hr => by rw [hb b hr, h.db.vec?]⟩

theorem listUnits_post : (listUnits (F := F)).post (fun r w' => w.Reads w' ∧
    ∀ us, r = .ok us → us.map (·.toUnitRow) = w.db.units.rows) w := by
  refine post_mono select_post fun r w' ⟨hr, ha⟩ => ⟨hr, fun us h => ?_⟩
  rw [ha us h, List.map_map]
  exact List.map_id _

private theorem insertVector_post {v : List F} : (insertVector i v).post (fun r w' =>
    (w.Reads w' ∧ (∃ e, r = .error e) ∧
      (w.FaultFree → w.mode = .readWrite → ∀ e, w.db.embeddings = some e → ¬e.Fits v)) ∨
    ∃ e h f, w.db.embeddings = some e ∧ r = .ok () ∧ w' = { w with
      faults := f
      db     := { w.db with embeddings := some (e.insert { id := i, vec := F.cast v } h) } }) w := by
  have hx : (insertVector i v).post _ w := execute_post
  obtain ⟨hr, e, he⟩ | ⟨db, f, hf, hm, hw, hr⟩ := hx
  case inl =>
    refine .inl ⟨hr, ⟨e, he⟩, fun hf hm e' he' hfit => ?_⟩
    rw [insertVector, execute_of_faultFree hf hm, he'] at he
    simp [Embeddings.fits_cast.mpr hfit] at he
  case inr =>
    right
    split at hf <;> try cases hf
    case h_2 e he =>
      split at hf <;> cases hf
      case isTrue hv => exact ⟨e, hv, f, he, hr, hw⟩

private theorem upsertRelations_post {db : Db F} {row : UnitRow} {rels rs : List Relation}
    (hs : db.Stores row vector rels w.db) (hrs : ∀ r ∈ rs, r ∈ rels) :
    (rs.forM upsertRelation).post (fun _ w' => db.Stores row vector rels w'.db ∧
      w'.db.units = w.db.units ∧ (∀ i, w'.db.vec? i = w.db.vec? i) ∧
      ∃ f, w' = { w with db := w'.db, faults := f }) w := by
  induction rs generalizing w
  case nil => exact post_pure ⟨hs, rfl, fun _ => rfl, _, rfl⟩
  case cons r rs ih =>
    refine post_bind execute_post ?_ ?_
    case refine_2 =>
      rintro _ _ (⟨⟨f, rfl⟩, _⟩ | ⟨_, _, _, _, _, h⟩)
      case inl => exact ⟨hs, rfl, fun _ => rfl, f, rfl⟩
      case inr => cases h
    rintro _ _ (⟨_, e, h⟩ | ⟨_, f, hf, _, rfl, _⟩)
    case inl => cases h
    cases hf
    have hs' := hs.insertRelation (hrs r (.head _))
    refine post_mono (ih (w := { w with db := w.db.insertRelation r, faults := f }) hs'
      fun r hr => hrs r (.tail _ hr)) ?_
    rintro _ _ ⟨h, hu, hv, f', hw⟩
    exact ⟨h, hu, hv, f', hw⟩

private theorem upsertRelations_stored {rs : List Relation} : (rs.forM upsertRelation).post
    (fun res w' => (∀ r ∈ w.db.relations, r ∈ w'.db.relations) ∧
      (res = .ok () → ∀ r ∈ rs, r ∈ w'.db.relations)) w := by
  induction rs generalizing w
  case nil => exact post_pure ⟨fun _ => id, fun _ => nofun⟩
  case cons r rs ih =>
    refine post_bind execute_post ?_ ?_
    case refine_2 =>
      rintro _ _ (⟨⟨f, rfl⟩, _⟩ | ⟨_, _, _, _, _, h⟩)
      case inl => exact ⟨fun _ => id, nofun⟩
      case inr => cases h
    rintro _ _ (⟨_, e, h⟩ | ⟨_, f, hf, _, rfl, _⟩)
    case inl => cases h
    cases hf
    refine post_mono ih ?_
    rintro res w' ⟨hkept, hnew⟩
    refine ⟨fun r' hr' => hkept r' ?_, fun h => List.forall_mem_cons.mpr ⟨hkept r ?_, hnew h⟩⟩
    · by_cases he : r' = r
      · exact Table.mem_insert.mpr (.inl he)
      · exact Table.mem_insert.mpr (.inr ⟨hr', he⟩)
    · exact Table.mem_insert.mpr (.inl rfl)

-- Storing a unit binds the embedder, if there is a vector to store, which leads to state `w₁`, and
-- writes the row and then the vector. Without faults only a vector of another width is refused.
structure Upserts (embedder : Embedder F) (u : KnowledgeUnit) (vector : Option (List F))
    (w w₁ : World F) (r : Except Exn Unit) (w' : World F) : Prop where
  start    : w₁ = if vector.isSome then (ensureEmbeddingsBound embedder w).state else w
  binds    : w.Binds embedder.modelId w₁
  frame    : ∃ f, w' = { w₁ with db := w'.db, faults := f }
  stores   : w₁.db.Stores u.toUnitRow vector u.relations w'.db
  ok       : r = .ok () → w'.db.units = w.db.units.insert u.toUnitRow ∧
    ∀ v, vector = some v → ∀ i, w'.db.vec? i = if i = u.id then some (F.cast v) else w.db.vec? i
  stored   : r = .ok () → ∀ r ∈ u.relations, r ∈ w'.db.relations
  rejected : w.FaultFree → w'.db.units = w.db.units ∨ ∀ v, vector = some v →
    (∀ i, w'.db.vec? i = if i = u.id then some (F.cast v) else w.db.vec? i) ∨
      ∀ e, w₁.db.embeddings = some e → ¬e.Fits v

theorem upsertUnit_post : (upsertUnit embedder u vector).post
    (fun r w' => ∃ w₁, Upserts embedder u vector w w₁ r w') w := by
  refine post_bind (P := fun r w' => w.Binds embedder.modelId w' ∧ later w w' ∧
    w' = if vector.isSome then (ensureEmbeddingsBound embedder w).state else w) ?_
    (fun _ w₁ ⟨hb, hl, hs⟩ => ?_) ?_
  · split
    · exact ⟨ensureEmbeddingsBound_post.left, ensureEmbeddingsBound_built.later.post, rfl⟩
    · exact post_pure ⟨.refl, later.refl w, rfl⟩
  case refine_3 =>
    exact fun _ w₁ ⟨hb, _, hs⟩ =>
      ⟨w₁, hs, hb, ⟨w₁.faults, rfl⟩, .refl, nofun, nofun, fun _ => .inl hb.db.units⟩
  refine post_bind (post_and execute_post execute_built.later.post) ?_ ?_
  case refine_2 =>
    rintro _ _ ⟨⟨⟨f, rfl⟩, _⟩ | ⟨_, _, _, _, _, h⟩, _⟩
    case inl => exact ⟨w₁, hs, hb, ⟨f, rfl⟩, .refl, nofun, nofun, fun _ => .inl hb.db.units⟩
    case inr => cases h
  rintro _ _ ⟨⟨_, e, h⟩ | ⟨_, f, hf, hm, rfl, _⟩, hl₁⟩
  case inl => cases h
  cases hf
  have hu₁ : w₁.db.units.insert u.toUnitRow = w.db.units.insert u.toUnitRow := by rw [hb.db.units]
  have hv₁ : ∀ i, w₁.db.vec? i = w.db.vec? i := fun _ => hb.db.vec?
  -- The vector comes after the row of the unit, and the relations come last.
  refine post_bind (P := fun r w' => w₁.db.Stores u.toUnitRow vector u.relations w'.db ∧
    w'.db.units = w₁.db.units.insert u.toUnitRow ∧ (∃ f, w' = { w₁ with db := w'.db, faults := f }) ∧
    ((∀ v, vector = some v → ∀ i, w'.db.vec? i = if i = u.id then some (F.cast v) else w.db.vec? i) ∨
      (∃ e, r = .error e) ∧ (w.FaultFree → ∀ v, vector = some v →
        ∀ e, w₁.db.embeddings = some e → ¬e.Fits v))) ?_ ?_ ?_
  · match vector with
    | none   => exact post_pure ⟨.insertUnit, rfl, ⟨_, rfl⟩, .inl nofun⟩
    | some v =>
      refine post_mono insertVector_post ?_
      rintro r _ (⟨⟨f', rfl⟩, he, hr⟩ | ⟨e, h, f', he, rfl, rfl⟩)
      case inl =>
        refine ⟨.insertUnit, rfl, ⟨f', rfl⟩, .inr ⟨he, ?_⟩⟩
        intro hf v' hv e he'
        cases hv
        exact hr ((hf.later hl).later hl₁) hm e he'
      case inr =>
        refine ⟨Db.Stores.insertUnit.insertVector rfl (fun _ => rfl) he, rfl, ⟨f', rfl⟩, .inl ?_⟩
        intro v' hv i
        cases hv
        rw [Db.vec?_insert he, ←hv₁ i]
        rfl
  · rintro _ w₂ ⟨hst, hu, ⟨f₂, hw⟩, hv⟩
    have hv := hv.resolve_right fun h => nomatch h.left
    refine post_mono (post_and (upsertRelations_post hst fun _ => id) upsertRelations_stored) ?_
    rintro r w₃ ⟨⟨hs', hu', hv', f₃, hw'⟩, _, hr'⟩
    have hv₃ : ∀ v, vector = some v → ∀ i, w₃.db.vec? i =
        if i = u.id then some (F.cast v) else w.db.vec? i :=
      fun v he i => by rw [hv' i, hv v he i]
    exact ⟨w₁, hs, hb, ⟨f₃, by rw [hw', hw]⟩, hs', fun _ => ⟨by rw [hu', hu, hu₁], hv₃⟩,
      hr', fun _ => .inr fun v he => .inl (hv₃ v he)⟩
  · rintro e w₂ ⟨hst, _, hw, hv⟩
    refine ⟨w₁, hs, hb, hw, hst, nofun, nofun, fun hf => .inr fun v he => ?_⟩
    exact hv.imp (· v he) (·.right hf v he)

-- Deleting stale units binds the embedder first.
theorem deleteStaleUnits_post {path : String} {ids : List String} :
    (deleteStaleUnits embedder path ids).post (fun r w' =>
      ∃ w₁ f, w₁ = (ensureEmbeddingsBound embedder w).state ∧
        w.Binds embedder.modelId w₁ ∧ w' = { w₁ with db := w'.db, faults := f } ∧
        w₁.db.Deletes (isStale path ids) w'.db ∧
        (r = .ok () → w'.db.units = w.db.units.delete (isStale path ids))) w := by
  refine post_bind (P := fun _ w' => w' = (ensureEmbeddingsBound embedder w).state ∧
    w.Binds embedder.modelId w') ⟨rfl, ensureEmbeddingsBound_post.left⟩ (fun _ w₁ ⟨hs, hb⟩ => ?_) ?_
  case refine_2 => exact fun _ w₁ ⟨hs, hb⟩ => ⟨w₁, w₁.faults, hs, hb, rfl, .refl, nofun⟩
  refine post_bind execute_post ?_ ?_
  case refine_2 =>
    rintro _ _ (⟨⟨f, rfl⟩, _⟩ | ⟨_, _, _, _, _, h⟩)
    case inl => exact ⟨w₁, f, hs, hb, rfl, .refl, nofun⟩
    case inr => cases h
  rintro _ _ (⟨_, e, h⟩ | ⟨_, f, hf, _, rfl, _⟩)
  case inl => cases h
  split at hf <;> cases hf
  have h₁ : w₁.db.Deletes (isStale path ids) _ := .deleteVectors
  refine post_bind execute_post ?_ ?_
  case refine_2 =>
    rintro _ _ (⟨⟨f', rfl⟩, _⟩ | ⟨_, _, _, _, _, h⟩)
    case inl => exact ⟨w₁, f', hs, hb, rfl, h₁, nofun⟩
    case inr => cases h
  rintro _ _ (⟨_, e, h⟩ | ⟨_, f', hf, _, rfl, _⟩)
  case inl => cases h
  cases hf
  have h₂ := h₁.deleteRelations rfl
  refine post_mono execute_post ?_
  rintro _ _ (⟨⟨f'', rfl⟩, e, rfl⟩ | ⟨_, f'', hf, _, rfl, rfl⟩)
  case inl => exact ⟨w₁, f'', hs, hb, rfl, h₂, nofun⟩
  cases hf
  refine ⟨w₁, f'', hs, hb, rfl, h₂.deleteUnits rfl fun i => Db.vec?_deleteVectors, fun _ => ?_⟩
  rw [←hb.db.units]
  rfl

theorem pathsMigrationDone_post : pathsMigrationDone.post
    (fun r w' => w.Reads w' ∧ ∀ b, r = .ok b → b = decide (w.db.meta? PATHS_MIGRATED_KEY = some "1")) w := by
  refine post_bind metaGet_post (fun a w' ⟨hr, ha⟩ => ?_) fun _ _ h => ⟨h.left, nofun⟩
  exact post_pure ⟨hr, fun b hb => by cases hb; rw [ha a rfl]⟩

private theorem closestUnits_post {closer : VecRow F → VecRow F → Bool} {queryLength dim limit : Nat} :
    (closestUnits closer queryLength dim limit).post
      (fun r _ => ∀ us, r = .ok us → ∀ u ∈ us, u ∈ w.db.units) w := by
  unfold closestUnits statement EStateM.post
  dsimp only
  split
  case isTrue => exact fun _ h => by cases h
  case isFalse =>
    rw [tick_db]
    split
    case h_1 => exact fun _ h => by cases h
    case h_2 =>
      split
      case isTrue => exact fun _ h => by cases h
      case isFalse =>
        rintro _ ⟨⟩ u hu
        obtain ⟨r, _, hr⟩ := List.mem_filterMap.mp (List.mem_of_mem_take hu)
        exact Table.mem_of_find? hr

-- A search finds rows of the index.
theorem searchUnits_post {closer : List F → VecRow F → VecRow F → Bool} {query : String}
    {limit : Nat} : (searchUnits embedder closer query limit).post
      (fun r _ => ∀ us, r = .ok us → ∀ u ∈ us, u.toUnitRow ∈ w.db.units) w := by
  refine post_bind ensureEmbeddingsBound_post (fun _ w₁ ⟨hb, _⟩ => ?_) fun _ _ _ => nofun
  refine post_bind dimension_post (fun dim w₂ h₂ => ?_) fun _ _ _ => nofun
  refine post_bind aembed_post (fun vectors w₃ ⟨⟨f, h₃⟩, _⟩ => ?_) fun _ _ _ => nofun
  cases vectors
  case nil => exact post_throw nofun
  case cons v _ =>
    refine post_bind closestUnits_post (fun rows w₄ h₄ => ?_) fun _ _ _ => nofun
    have hrows : ∀ row ∈ rows, row ∈ w.db.units := by
      subst h₂ h₃
      exact hb.db.units ▸ h₄ rows rfl
    split
    case isTrue  => exact post_pure fun us hus => by cases hus; exact nofun
    case isFalse =>
      refine post_bind select_post (fun rels w₅ _ => ?_) fun _ _ _ => nofun
      refine post_pure fun us hus u hu => ?_
      cases hus
      obtain ⟨row, hrow, rfl⟩ := List.mem_map.mp hu
      exact hrows row hrow

end Conn
