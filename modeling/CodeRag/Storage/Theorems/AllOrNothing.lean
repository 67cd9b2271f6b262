import CodeRag.Storage.Theorems.Open
import CodeRag.Storage.Theorems.Rebind

-- Which operations change all of the tables they are to change or none.

namespace Db

variable {F : Floats} {db db' : Db F} {u : KnowledgeUnit} {vector : Option (List F)}

-- A vector can be stored.
def Takes (db : Db F) (v : List F) : Prop :=
  db.embeddings.isSome ∧ ∀ n ∈ db.width?, v.length = n

theorem takes_iff {v : List F} : db.Takes v ↔ ∃ e, db.embeddings = some e ∧ e.Fits v := by
  unfold Takes width? Embeddings.Fits
  cases db.embeddings <;> simp

theorem takes_cast {v : List F} : db.Takes (F.cast v) ↔ db.Takes v := by
  rw [Takes, Takes, Floats.length_cast]

theorem Same.takes {v : List F} (h : db.Same db') : db'.Takes v ↔ db.Takes v := by
  rw [Takes, Takes, h.table, h.width]

-- Storing a unit is a single write, or the writes before the last one find what they write.
def UpsertsAtOnce (u : KnowledgeUnit) (vector : Option (List F)) (db : Db F) : Prop :=
  vector = none ∧ u.relations = [] ∨ u.toUnitRow ∈ db.units ∧
    (u.relations = [] ∨ (∃ v ∈ vector, ¬db.Takes v) ∨
      (∀ v ∈ vector, db.vec? u.id = some (F.cast v)) ∧ ∀ r ∈ u.relations.dropLast, r ∈ db.relations)

theorem Same.upsertsAtOnce (h : db.Same db') (hu : db.UpsertsAtOnce u vector) :
    db'.UpsertsAtOnce u vector := by
  unfold UpsertsAtOnce at hu ⊢
  simpa only [h.units, h.takes, h.vec, h.relations] using hu

-- There are no vectors to delete from, or none of a stale unit and no relations that start at one.
def DeletesAtOnce (path : String) (ids : List String) (db : Db F) : Prop :=
  db.embeddings.isSome → ∀ row ∈ db.units, Conn.isStale path ids row →
    db.vec? row.id = none ∧ ∀ r ∈ db.relations, r.fromId ≠ row.id

theorem Same.deletesAtOnce {path : String} {ids : List String} (h : db.Same db')
    (hd : db.DeletesAtOnce path ids) : db'.DeletesAtOnce path ids := by
  unfold DeletesAtOnce at hd ⊢
  simpa only [h.table, h.units, h.vec, h.relations] using hd

end Db

namespace Conn

open EStateM World

variable {F : Floats} {w : World F} {embedder : Embedder F} {u : KnowledgeUnit} {db : Db F}
variable {vector : Option (List F)} {path : String} {ids : List String} {rels : List Relation}
variable {f : Db F → Except Exn (Db F)} {fs : List (Db F → Except Exn (Db F))}

section Writes

def storeUnit (u : KnowledgeUnit) (db : Db F) : Except Exn (Db F) :=
  .ok (db.insertUnit u.toUnitRow)

-- The vector is one that the column keeps.
def storeVector (i : String) (vec : List F) (db : Db F) : Except Exn (Db F) :=
  match db.embeddings with
  | none   => .error (noSuchTable "unit_embeddings")
  | some e =>
    if h : e.Fits vec then
      .ok { db with embeddings := some (e.insert { id := i, vec := vec } h) }
    else
      .error (.database "Cannot cast array to array of another size")

def storeRelation (r : Relation) (db : Db F) : Except Exn (Db F) :=
  .ok (db.insertRelation r)

-- The writes of `upsertUnit`.
def upsertWrites (u : KnowledgeUnit) (vector : Option (List F)) : List (Db F → Except Exn (Db F)) :=
  storeUnit u :: (vector.toList.map (storeVector u.id ∘ F.cast) ++ u.relations.map storeRelation)

theorem forM_relations : rels.forM (upsertRelation (F := F)) = (rels.map storeRelation).forM execute := by
  induction rels
  case nil          => rfl
  case cons r rs ih => exact congrArg (upsertRelation r >>= ·) (funext fun _ => ih)

theorem upsertUnit_eq : upsertUnit embedder u vector =
    (if vector.isSome then ensureEmbeddingsBound embedder else pure ()) >>= fun _ =>
      (upsertWrites u vector).forM execute := by
  unfold upsertUnit upsertWrites
  rw [forM_relations]
  cases vector <;> rfl

-- The writes of `deleteStaleUnits`.
def staleWrites (stale : UnitRow → Bool) : List (Db F → Except Exn (Db F)) :=
  [fun db =>
      if db.embeddings.isSome then
        .ok (db.deleteVectors (db.unitIdWhere stale))
      else
        .error (noSuchTable "unit_embeddings"),
    fun db => .ok (db.deleteRelations (db.unitIdWhere stale ·.fromId)),
    fun db => .ok (db.deleteUnits stale)]

theorem deleteStaleUnits_eq : deleteStaleUnits embedder path ids =
    ensureEmbeddingsBound embedder >>= fun _ =>
      (staleWrites (isStale path ids)).forM execute := by
  refine congrArg (ensureEmbeddingsBound embedder >>= ·) (funext fun _ => ?_)
  refine congrArg (deleteVectors (·.unitIdWhere (isStale path ids)) >>= ·) (funext fun _ => ?_)
  exact congrArg (execute _ >>= ·) (funext fun _ => bind_pure_unit.symm)

theorem atOnce_cons :
    AtOnce (f :: fs) db ↔ fs = [] ∨ ∀ db', f db = .ok db' → db.Same db' ∧ AtOnce fs db' := by
  cases fs <;> simp [AtOnce]

theorem atOnce_relations :
    AtOnce (rels.map storeRelation) db ↔ ∀ r ∈ rels.dropLast, r ∈ db.relations := by
  induction rels generalizing db
  case nil => simp [AtOnce]
  case cons r rs ih =>
    cases rs
    case nil => simp [AtOnce]
    case cons r' rs =>
      simp only [List.map_cons] at ih
      simp only [List.map_cons, AtOnce, storeRelation, Except.ok.injEq, forall_eq',
        Db.same_insertRelation, List.dropLast_cons_of_ne_nil (List.cons_ne_nil _ _), List.forall_mem_cons]
      refine and_congr_right fun hr => ?_
      refine ih.trans (forall₂_congr fun r'' _ => ?_)
      exact Table.mem_insert_of_mem hr

theorem atOnce_vector {i : String} {v : List F} :
    AtOnce (storeVector i v :: rels.map storeRelation) db ↔
      rels = [] ∨ ¬db.Takes v ∨ db.vec? i = some v ∧ ∀ r ∈ rels.dropLast, r ∈ db.relations := by
  rw [atOnce_cons, List.map_eq_nil_iff]
  refine or_congr_right ?_
  unfold storeVector
  by_cases ht : db.Takes v
  case neg =>
    refine iff_of_true (fun db' h => ?_) (.inl ht)
    rw [Db.takes_iff] at ht
    split at h
    case h_1 => cases h
    case h_2 e he =>
      split at h
      case isTrue hf => exact absurd ⟨e, he, hf⟩ ht
      case isFalse   => cases h
  case pos =>
    obtain ⟨e, he, hf⟩ := Db.takes_iff.mp ht
    rw [or_iff_right (not_not.mpr ht), he]
    simp only [dif_pos hf, Except.ok.injEq, forall_eq', Db.same_insertVector he, atOnce_relations]

theorem atOnce_upsert : AtOnce (upsertWrites u vector) db ↔ db.UpsertsAtOnce u vector := by
  have hrest : AtOnce (vector.toList.map (storeVector u.id ∘ F.cast) ++ u.relations.map storeRelation)
      (db.insertUnit u.toUnitRow) ↔ u.relations = [] ∨ (∃ v ∈ vector, ¬db.Takes v) ∨
        (∀ v ∈ vector, db.vec? u.id = some (F.cast v)) ∧
          ∀ r ∈ u.relations.dropLast, r ∈ db.relations := by
    cases vector
    case none =>
      have hr : u.relations = [] → ∀ r ∈ u.relations.dropLast, r ∈ db.relations := fun h => by simp [h]
      refine atOnce_relations.trans ⟨fun h => .inr (.inr ⟨nofun, h⟩), ?_⟩
      rintro (h | ⟨v, hv, _⟩ | ⟨_, h⟩)
      · exact hr h
      · cases hv
      · exact h
    case some v =>
      refine atOnce_vector.trans ?_
      simp only [Option.mem_some_iff, exists_eq_left', forall_eq', Db.takes_cast]
      rfl
  have hnil : vector.toList.map (storeVector u.id ∘ F.cast) ++ u.relations.map (storeRelation (F := F)) = [] ↔
      vector = none ∧ u.relations = [] := by
    simp
  unfold upsertWrites
  rw [atOnce_cons, hnil]
  refine or_congr_right ?_
  simp only [storeUnit, Except.ok.injEq, forall_eq', Db.same_insertUnit]
  exact and_congr_right fun _ => hrest

theorem atOnce_stale :
    AtOnce (staleWrites (isStale path ids)) db ↔ db.DeletesAtOnce path ids := by
  have hwhere : ∀ {db : Db F} {i : String}, db.unitIdWhere (isStale path ids) i ↔
      ∃ row ∈ db.units, isStale path ids row ∧ row.id = i := by
    intro db i
    simp only [Db.unitIdWhere, Option.any_eq_true, Table.find?_eq_some_iff, key_unitRow]
    constructor
    case mp  => rintro ⟨row, ⟨hr, hi⟩, hs⟩; exact ⟨row, hr, hs, hi⟩
    case mpr => rintro ⟨row, hr, hs, hi⟩; exact ⟨row, ⟨hr, hi⟩, hs⟩
  unfold staleWrites Db.DeletesAtOnce
  simp only [AtOnce, and_true]
  by_cases he : db.embeddings.isSome
  case neg => simp [he]
  case pos =>
    simp only [he, if_true, Except.ok.injEq, forall_eq', Db.same_deleteVectors, Db.same_deleteRelations,
      forall_const]
    constructor
    case mp =>
      rintro ⟨hv, hr⟩ row hrow hs
      have hi : db.unitIdWhere (isStale path ids) row.id := hwhere.mpr ⟨row, hrow, hs, rfl⟩
      refine ⟨hv _ hi, fun r hrel he => ?_⟩
      have hf : db.unitIdWhere (isStale path ids) r.fromId = false := hr r hrel
      simp [he, hi] at hf
    case mpr =>
      intro h
      refine ⟨fun i hi => ?_, fun r hrel => Bool.eq_false_iff.mpr fun hi => ?_⟩
      · obtain ⟨row, hrow, hs, rfl⟩ := hwhere.mp hi
        exact (h row hrow hs).left
      · have hi : db.unitIdWhere (isStale path ids) r.fromId := hi
        obtain ⟨row, hrow, hs, hid⟩ := hwhere.mp hi
        exact (h row hrow hs).right r hrel hid.symm

end Writes

section Bind

private theorem keys_of_same {db' : Db F} (hs : db.Same db') (hd : (db'.meta? META_DIM_KEY).isSome)
    (hm : (db'.meta? META_MODEL_KEY).isSome) : db.lacksMeta = false := by
  rw [hs.keys] at hd hm
  simp [Db.lacksMeta, Option.isNone_eq_false_iff.mpr hd, Option.isNone_eq_false_iff.mpr hm]

private theorem keys_fillMeta (hi : db.indexMeta.isSome) :
    (db.fillMeta.meta? META_DIM_KEY).isSome ∧ (db.fillMeta.meta? META_MODEL_KEY).isSome := by
  have hi' : (db.setMeta META_DIM_KEY (toString db.inferredWidth)).indexMeta.isSome := by simpa using hi
  unfold Db.fillMeta
  constructor
  · rw [Db.meta?_setMeta hi', if_neg (by decide), Db.meta?_setMeta hi, if_pos rfl]
    rfl
  · rw [Db.meta?_setMeta hi', if_pos rfl]
    rfl

private theorem keys_finishBind {m : String} {n : Nat} {h : ArraySize n} (hi : db.indexMeta.isSome) :
    (db.finishBind m n h).meta? META_DIM_KEY = some (toString n) ∧
      ((db.finishBind m n h).meta? META_MODEL_KEY).isSome := by
  rw [Db.meta?_finishBind hi, Db.meta?_finishBind hi, if_neg (by decide), if_pos rfl, if_pos rfl]
  exact ⟨rfl, by simp⟩

-- An embedder that leaves the tables as they are when nothing fails has nothing to write.
theorem bindsNothing_of_same (h : w.Ready)
    (hs : w.db.Same (ensureEmbeddingsBound embedder w).state.db) : BindsNothing embedder w := by
  by_cases hb : w.bound
  case pos => exact .inl hb
  have hb : w.bound = false := by simpa using hb
  have hi : (inferredWorld w).db.indexMeta.isSome := by simpa [inferredWorld] using h.indexMeta
  refine .inr ⟨fun hw he => ?_, fun n hr ht => ?_⟩
  · by_contra hl
    have hl : w.db.lacksMeta = true := by simpa using hl
    have hfill : (inferredWorld w).db = w.db.fillMeta := by
      simp [inferredWorld, Db.inferMeta, hw, he, hl]
    obtain ⟨hdim, hmodel⟩ := keys_fillMeta h.indexMeta
    have hnot : ¬w.db.Same (inferredWorld w).db := by
      intro hs
      rw [hfill] at hs
      simpa [hl] using keys_of_same hs hdim hmodel
    obtain ⟨e, k, hx⟩ | ⟨n, k, hr, hx⟩ := ensureEmbeddingsBound_of_ready embedder hb
    case inl =>
      rw [hx w h .refl] at hs
      exact hnot hs
    case inr =>
      rw [hx w h .refl] at hs
      split at hs
      case isFalse   => exact hnot hs
      case isTrue ht =>
        have hs : w.db.Same ((inferredWorld w).db.finishBind embedder.modelId n ht.size) := hs
        obtain ⟨hdim, hmodel⟩ := keys_finishBind (m := embedder.modelId) (n := n) (h := ht.size) hi
        simpa [hl] using keys_of_same hs (by rw [hdim]; rfl) hmodel
  · obtain ⟨k, hk⟩ := ensureEmbeddingsBound_of_reaches h hb hr (.inl rfl)
    rw [hk, dif_pos ht] at hs
    obtain ⟨hdim, hmodel⟩ := keys_finishBind (m := embedder.modelId) (n := n) (h := ht.size) hi
    refine ⟨?_, (hs.keys _).symm.trans hdim, ?_⟩
    · rw [←hs.table]
      simp
    · rw [←hs.keys]
      exact hmodel

variable {P : Db F → Prop}

theorem BindsNothing.withFaults {φ : Nat → Bool} (h : BindsNothing embedder w) :
    BindsNothing embedder (w.withFaults φ) :=
  h.imp_right fun h => ⟨h.filled, h.finished⟩

private theorem committed_of_guarded {w' : World F} (hs : w.saved = none) (hg : guarded w w') :
    w'.committed = w'.db :=
  committed_eq (hg.left.trans hs)

-- An operation that writes after it has bound the embedder.
private theorem bound_allOrNothing (hm : w.mode = .readWrite) (hs : w.saved = none)
    (hi : w.db.indexMeta.isSome) (hP : ∀ db, AtOnce (f :: fs) db ↔ P db)
    (hsame : ∀ db db', db.Same db' → P db → P db') :
    AllOrNothing (ensureEmbeddingsBound embedder >>= fun _ => (f :: fs).forM execute) w ↔
      BindsNothing embedder w ∧ (¬Bindable embedder w ∨ P w.db) := by
  constructor
  case mp =>
    intro h
    have hready : (w.withFaults fun _ => false).Ready := ⟨rfl, hm, hi⟩
    have hbuilt : Built (ensureEmbeddingsBound embedder) := ensureEmbeddingsBound_built
    obtain ⟨k, hk⟩ := hbuilt.delayed hready.faultFree
    have hg := hbuilt.guarded (w.withFaults fun _ => false)
    have hok : _ ↔ Bindable embedder _ := ensure_ok_iff hready
    cases hx : ensureEmbeddingsBound embedder (w.withFaults fun _ => false) <;> rw [hx] at hk hg hok
    case error e w₁ =>
      have hsame := h _ e w₁ (bind_of_error hx)
      rw [committed_eq hs, show w₁.committed = w₁.db from committed_of_guarded hs hg] at hsame
      have hb : BindsNothing embedder _ := bindsNothing_of_same hready (by rw [hx]; exact hsame)
      exact ⟨hb.withFaults (φ := w.faults), .inl fun hc => nomatch hok.mpr hc⟩
    case ok a w₁ =>
      have hc : ∀ φ, (w₁.withFaults φ).committed = w₁.db := fun φ => committed_eq (hg.left.trans hs)
      -- The statement after the binding fails.
      have hdb := h _ _ _ ((bind_of_ok (hk fun _ => true)).trans forM_failing)
      rw [committed_eq hs, hc] at hdb
      have hb : BindsNothing embedder _ := bindsNothing_of_same hready (by rw [hx]; exact hdb)
      refine ⟨hb.withFaults (φ := w.faults), .inr (hsame _ _ hdb.symm ((hP _).mp ?_))⟩
      refine (writes_allOrNothing (hg.right.left.trans hm) (hg.left.trans hs)).mp fun φ e w' hrun => ?_
      have hrun := h _ e w' ((bind_of_ok (hk φ)).trans hrun)
      rw [committed_eq hs] at hrun
      show (w₁.withFaults w₁.faults).committed.Same _
      rw [hc]
      exact hdb.symm.trans hrun
  case mpr =>
    intro ⟨hb, hp⟩ φ e w' hrun
    have hpost := ensure_bindsNothing (w := w.withFaults φ) hm hb.withFaults
    have hbuilt : Built (ensureEmbeddingsBound embedder) := ensureEmbeddingsBound_built
    have hg := hbuilt.guarded (w.withFaults φ)
    unfold EStateM.post at hpost
    rw [committed_eq hs]
    obtain ⟨_, w₁, hx, hrun⟩ | ⟨_, w₁, hx, he⟩ := bind_cases hrun <;> rw [hx] at hpost hg
    case inr =>
      cases he
      rw [show w'.committed = w'.db from committed_of_guarded hs hg]
      exact hpost.left
    case inl =>
      have hp := hp.resolve_left (not_not.mpr (hpost.right rfl))
      have hrest := (writes_allOrNothing (hg.right.left.trans hm) (hg.left.trans hs)).mpr
        ((hP w₁.db).mpr (hsame _ _ hpost.left hp)) w₁.faults e w' hrun
      rw [committed_of_guarded hs hg] at hrest
      exact hpost.left.trans hrest

end Bind

-- A session whose writes nobody sees: it only reads, or it is in a transaction.
def Unseen (w : World F) : Prop :=
  w.mode = .readOnly ∨ w.saved.isSome

private theorem allOrNothing_of_unseen {x : Conn F Unit} (hx : Built x) (h : Unseen w) :
    AllOrNothing x w := by
  intro φ e w' hrun
  have hg := hx.guarded (w.withFaults φ)
  rw [hrun] at hg
  have hc : w'.committed = w.committed := by
    unfold committed
    rw [show w'.saved = w.saved from hg.left]
    obtain h | h := h
    case inl => rw [show w'.db = w.db from hg.right.right h]
    case inr =>
      obtain ⟨db, hdb⟩ := Option.isSome_iff_exists.mp h
      rw [hdb]
      rfl
  rw [hc]
  exact .refl

private theorem seen_iff : ¬Unseen w ↔ w.mode = .readWrite ∧ w.saved = none := by
  unfold Unseen
  cases w.mode <;> cases w.saved <;> simp

-- For an index that is open, whichever statements fail.
theorem allOrNothing_iff {old new : String} {paths : List String}
    (hi : w.mode = .readWrite → w.db.indexMeta.isSome) :
    (AllOrNothing (upsertUnit embedder u vector) w ↔ Unseen w ∨
      (vector.isSome → BindsNothing embedder w) ∧
        (vector.isSome ∧ ¬Bindable embedder w ∨ w.db.UpsertsAtOnce u vector)) ∧
    (AllOrNothing (deleteStaleUnits embedder path ids) w ↔ Unseen w ∨
      BindsNothing embedder w ∧ (¬Bindable embedder w ∨ w.db.DeletesAtOnce path ids)) ∧
    AllOrNothing (commitRewrittenPath old new) w ∧ AllOrNothing (deleteAbsolutePaths paths) w := by
  refine ⟨?_, ?_, commitRewrittenPath_allOrNothing, deleteAbsolutePaths_allOrNothing⟩
  all_goals
    by_cases hu : Unseen w
    case pos =>
      refine iff_of_true (allOrNothing_of_unseen ?_ hu) (.inl hu)
      first | exact upsertUnit_built | exact deleteStaleUnits_built
    rw [or_iff_right hu]
    obtain ⟨hm, hs⟩ := seen_iff.mp hu
  · rw [upsertUnit_eq]
    cases vector
    case none =>
      simpa using (writes_allOrNothing hm hs).trans atOnce_upsert
    case some v =>
      simp only [Option.isSome_some, if_true, forall_const, true_and]
      exact bound_allOrNothing hm hs (hi hm) (fun _ => atOnce_upsert) fun _ _ h => h.upsertsAtOnce
  · rw [deleteStaleUnits_eq]
    exact bound_allOrNothing hm hs (hi hm) (fun _ => atOnce_stale) fun _ _ h => h.deletesAtOnce

section Sample

private def sampleUnit (codeHash : String) : KnowledgeUnit where
  id        := "a.py:f"
  kind      := .function
  name      := "f"
  path      := "a.py"
  signature := none
  docstring := none
  summary   := some ""
  codeHash  := codeHash
  tags      := []
  metadata  := []
  relations := []

private def sampleModel : Embedder naturals where
  modelId        := "m"
  aembed _ texts := .ok (texts.map fun text => [text.length])

-- A session that has stored a unit with a vector.
private def sampleWorld : World naturals :=
  (upsertUnit sampleModel (sampleUnit "1") (some [1])
    (.opened sampleModel .empty false none noFaults)).state

theorem allOrNothing_iff_sample :
    AllOrNothing (upsertUnit sampleModel (sampleUnit "2") none) sampleWorld ∧
    AllOrNothing (deleteStaleUnits sampleModel "b.py" []) sampleWorld := by
  have hi : sampleWorld.db.indexMeta.isSome := by decide +kernel
  have hb : sampleWorld.bound := by decide +kernel
  have hrows : (sampleWorld.db.units.rows.map UnitRow.path).all (· ≠ "b.py") := by decide +kernel
  generalize sampleWorld = w at hi hb hrows ⊢
  have hstale : w.db.DeletesAtOnce "b.py" [] := by
    intro _ row hr hs
    have hp := List.all_eq_true.mp hrows _ (List.mem_map_of_mem hr)
    simp only [isStale, decide_eq_true_eq] at hs hp
    exact absurd hs.left hp
  have ⟨hupsert, hdelete, _⟩ : (AllOrNothing (upsertUnit sampleModel (sampleUnit "2") none) w ↔ _) ∧
      (AllOrNothing (deleteStaleUnits sampleModel "b.py" []) w ↔ _) ∧
      AllOrNothing (commitRewrittenPath "" "") w ∧ AllOrNothing (deleteAbsolutePaths []) w :=
    allOrNothing_iff fun _ => hi
  exact ⟨hupsert.mpr (.inr ⟨nofun, .inr (.inl ⟨rfl, rfl⟩)⟩),
    hdelete.mpr (.inr ⟨.inl hb, .inr hstale⟩)⟩

-- The new row of the unit stays when its vector cannot be written, so the old vector is taken for that of
-- the new text from then on.
theorem not_allOrNothing : ∃ e w',
    upsertUnit sampleModel (sampleUnit "2") (some [2]) (sampleWorld.withFaults (delay 1 fun _ => true)) =
      .error e w' ∧
    (sampleWorld.committed.units.find? "a.py:f").map (·.codeHash) = some "1" ∧
    (w'.committed.units.find? "a.py:f").map (·.codeHash) = some "2" ∧
    w'.committed.vec? "a.py:f" = some [1] ∧ ¬sampleWorld.committed.Same w'.committed := by
  have hbefore : (sampleWorld.committed.units.find? "a.py:f").map (·.codeHash) = some "1" := by
    decide +kernel
  have ho : (upsertUnit sampleModel (sampleUnit "2") (some [2])
    (sampleWorld.withFaults (delay 1 fun _ => true))).outcome ≠ .ok () := by decide +kernel
  have hafter : ((upsertUnit sampleModel (sampleUnit "2") (some [2])
    (sampleWorld.withFaults (delay 1 fun _ => true))).state.committed.units.find? "a.py:f").map
      (·.codeHash) = some "2" := by decide +kernel
  have hvec : (upsertUnit sampleModel (sampleUnit "2") (some [2])
    (sampleWorld.withFaults (delay 1 fun _ => true))).state.committed.vec? "a.py:f" = some [1] := by
    decide +kernel
  generalize upsertUnit sampleModel (sampleUnit "2") (some [2])
    (sampleWorld.withFaults (delay 1 fun _ => true)) = r at ho hafter hvec ⊢
  cases r
  case ok a w' => exact absurd rfl ho
  case error e w' =>
    refine ⟨e, w', rfl, hbefore, hafter, hvec, fun h => ?_⟩
    have hafter : (w'.committed.units.find? "a.py:f").map (·.codeHash) = some "2" := hafter
    rw [h.find?, hbefore] at hafter
    exact absurd hafter (by decide)

end Sample
end Conn
