import CodeRag.Storage.Theorems.Search
import CodeRag.Storage.Theorems.Settle

-- The operations of an open storage read and write the rows of the units that they are about, and do
-- not notice what happens to the others.

namespace Db

variable {F : Floats} {db db' db'' : Db F} {O P : String → Prop} {u : UnitRow} {stale : UnitRow → Bool}
variable {i m : String}

def relationsOf (db : Db F) (i : String) : List Relation :=
  db.relations.rows.filter (·.fromId = i)

-- The two databases hold the same rows for the units whose ids have a property.
structure SameOn (O : String → Prop) (db db' : Db F) : Prop where
  unit      : ∀ i, O i → db'.units.find? i = db.units.find? i
  vec       : ∀ i, O i → db'.vec? i = db.vec? i
  relations : ∀ i, O i → db'.relationsOf i = db.relationsOf i

-- The statements that delete stale units.
def dropStale (db : Db F) (stale : UnitRow → Bool) : Db F :=
  ((db.deleteVectors (db.unitIdWhere stale)).deleteRelations (db.unitIdWhere stale ·.fromId)).deleteUnits stale

namespace SameOn

theorem refl : SameOn O db db :=
  ⟨fun _ _ => rfl, fun _ _ => rfl, fun _ _ => rfl⟩

theorem symm (h : SameOn O db db') : SameOn O db' db :=
  ⟨fun i hi => (h.unit i hi).symm, fun i hi => (h.vec i hi).symm, fun i hi => (h.relations i hi).symm⟩

theorem trans (h : SameOn O db db') (h' : SameOn O db' db'') : SameOn O db db'' where
  unit i hi      := (h'.unit i hi).trans (h.unit i hi)
  vec i hi       := (h'.vec i hi).trans (h.vec i hi)
  relations i hi := (h'.relations i hi).trans (h.relations i hi)

theorem mono (h : SameOn O db db') (hP : ∀ i, P i → O i) : SameOn P db db' :=
  ⟨fun i hi => h.unit i (hP i hi), fun i hi => h.vec i (hP i hi), fun i hi => h.relations i (hP i hi)⟩

theorem of_binds (h : Binds m db db') : SameOn O db db' where
  unit _ _      := by rw [h.units]
  vec _ _       := h.vec?
  relations _ _ := by rw [relationsOf, relationsOf, h.relations]

theorem insertUnit (h : SameOn O db db') : SameOn O (db.insertUnit u) (db'.insertUnit u) where
  unit i hi      := by
    show (db'.units.insert u).find? i = (db.units.insert u).find? i
    rw [Table.find?_insert, Table.find?_insert, h.unit i hi]
  vec i hi       := h.vec i hi
  relations i hi := h.relations i hi

theorem of_insertUnit (hu : ¬O u.id) : SameOn O db (db.insertUnit u) where
  unit i hi     := by
    have hk : i ≠ u.id := fun he => hu (he ▸ hi)
    exact Table.find?_insert_of_ne hk
  vec _ _       := rfl
  relations _ _ := rfl

section Vectors

variable {e e' : Embeddings F} {r : VecRow F} {hr : e.Fits r.vec} {hr' : e'.Fits r.vec}

theorem insertVector (h : SameOn O db db') (he : db.embeddings = some e) (he' : db'.embeddings = some e') :
    SameOn O { db with embeddings := some (e.insert r hr) } { db' with embeddings := some (e'.insert r hr') } where
  unit i hi      := h.unit i hi
  vec i hi       := by rw [vec?_insert he, vec?_insert he', h.vec i hi]
  relations i hi := h.relations i hi

theorem of_insertVector (he : db.embeddings = some e) (hi : ¬O r.id) :
    SameOn O db { db with embeddings := some (e.insert r hr) } where
  unit _ _      := rfl
  vec i ho      := by
    have hk : i ≠ r.id := fun h => hi (h ▸ ho)
    rw [vec?_insert he, if_neg hk]
  relations _ _ := rfl

end Vectors

theorem vec?_dropStale : (db.dropStale stale).vec? i = if db.unitIdWhere stale i then none else db.vec? i :=
  vec?_deleteVectors

theorem relationsOf_dropStale :
    (db.dropStale stale).relationsOf i = if db.unitIdWhere stale i then [] else db.relationsOf i := by
  show (db.relations.rows.filter _).filter _ = _
  rw [List.filter_filter]
  unfold relationsOf
  split
  case isTrue h  =>
    refine List.filter_eq_nil_iff.mpr fun r _ hr => ?_
    simp only [Bool.and_eq_true, decide_eq_true_eq, Bool.not_eq_true'] at hr
    rw [hr.left, h] at hr
    cases hr.right
  case isFalse h =>
    refine List.filter_congr fun r _ => ?_
    by_cases he : r.fromId = i
    case pos => simp [he, h]
    case neg => simp [he]

theorem dropStale (h : SameOn O db db') : SameOn O (db.dropStale stale) (db'.dropStale stale) := by
  have hw : ∀ i, O i → db'.unitIdWhere stale i = db.unitIdWhere stale i := fun i hi => by
    rw [unitIdWhere, unitIdWhere, h.unit i hi]
  refine ⟨fun i hi => ?_, fun i hi => ?_, fun i hi => ?_⟩
  · show (db'.units.delete stale).find? i = (db.units.delete stale).find? i
    rw [Table.find?_delete, Table.find?_delete, h.unit i hi]
  · rw [vec?_dropStale, vec?_dropStale, hw i hi, h.vec i hi]
  · rw [relationsOf_dropStale, relationsOf_dropStale, hw i hi, h.relations i hi]

theorem of_dropStale (hs : ∀ u ∈ db.units, stale u → ¬O u.id) : SameOn O db (db.dropStale stale) := by
  have hw : ∀ i, O i → db.unitIdWhere stale i = false := by
    intro i hi
    unfold unitIdWhere
    cases hf : db.units.find? i
    case none   => rfl
    case some u =>
      have hid : u.id = i := Table.key_of_find? hf
      rw [Option.any_some, Bool.eq_false_iff]
      exact fun ht => hs u (Table.mem_of_find? hf) ht (hid ▸ hi)
  refine ⟨fun i hi => ?_, fun i hi => ?_, fun i hi => ?_⟩
  · refine Table.find?_delete_of_not fun u hu hk => ?_
    have hid : u.id = i := hk
    exact Bool.eq_false_iff.mpr fun ht => hs u hu ht (hid ▸ hi)
  · rw [vec?_dropStale, hw i hi]
    rfl
  · rw [relationsOf_dropStale, hw i hi]
    rfl

theorem sameTables (h : ∀ i, SameOn (· = i) db db') : db.SameTables db' where
  units _     := Table.mem_iff_of_find?_eq fun i => (h i).unit i rfl
  vec i       := (h i).vec i rfl
  relations r := by
    have hm : ∀ db : Db F, r ∈ db.relations ↔ r ∈ db.relationsOf r.fromId := fun _ => by
      simp [relationsOf, ←Table.mem_rows]
    rw [hm, hm, (h r.fromId).relations _ rfl]

end SameOn
end Db

namespace Conn

open EStateM World

variable {F : Floats} {w w₁ : World F} {embedder : Embedder F} {u : KnowledgeUnit} {v : List F}
variable {i path : String} {ids : List String}

theorem upsertUnit_none_of_faultFree (hf : w.FaultFree) (hm : w.mode = .readWrite) (hr : u.relations = []) :
    upsertUnit embedder u none w = .ok () { w with db := w.db.insertUnit u.toUnitRow } := by
  have hx := execute_of_faultFree hf hm (f := fun db => .ok (db.insertUnit u.toUnitRow))
  unfold upsertUnit
  rw [hr]
  exact (bind_of_ok (rfl : (pure () : Conn F Unit) w = .ok () w)).trans ((bind_of_ok hx).trans rfl)

theorem upsertUnit_some_of_bound (he : ensureEmbeddingsBound embedder w = .ok () w₁) (hf : w₁.FaultFree)
    (hm : w₁.mode = .readWrite) (hr : u.relations = []) :
    upsertUnit embedder u (some v) w =
      insertVector u.id v { w₁ with db := w₁.db.insertUnit u.toUnitRow } := by
  have hx := execute_of_faultFree hf hm (f := fun db => .ok (db.insertUnit u.toUnitRow))
  unfold upsertUnit
  rw [hr]
  refine (bind_of_ok he).trans ((bind_of_ok hx).trans ?_)
  dsimp only
  cases hv : insertVector u.id v { w₁ with db := w₁.db.insertUnit u.toUnitRow }
  case ok    => rw [bind_of_ok hv]; rfl
  case error => rw [bind_of_error hv]

-- A bound session has a table, and refuses only a vector that does not fit into it.
theorem insertVector_of_faultFree {e : Embeddings F} (he : w.db.embeddings = some e) (hf : w.FaultFree)
    (hm : w.mode = .readWrite) : insertVector i v w =
      if h : e.Fits (F.cast v) then
        .ok () { w with db := { w.db with
          embeddings := some (e.insert { id := i, vec := F.cast v } h) } }
      else
        .error (.database "Cannot cast array to array of another size") w := by
  rw [insertVector, execute_of_faultFree hf hm, he]
  dsimp only
  by_cases h : e.Fits (F.cast v)
  case pos => rw [dif_pos h, dif_pos h]
  case neg => rw [dif_neg h, dif_neg h]

-- A bound session can delete stale units.
theorem deleteStaleUnits_of_bound (he : ensureEmbeddingsBound embedder w = .ok () w₁) (hf : w₁.FaultFree)
    (hm : w₁.mode = .readWrite) (ht : w₁.db.embeddings.isSome) :
    deleteStaleUnits embedder path ids w = .ok () { w₁ with db := w₁.db.dropStale (isStale path ids) } := by
  have hx := fun (db : Db F) (f : Db F → Except Exn (Db F)) =>
    execute_of_faultFree (w := { w₁ with db := db }) (f := f) hf hm
  unfold deleteStaleUnits
  rw [bind_of_ok he, bind_of_ok (show deleteVectors _ w₁ = .ok () { w₁ with
    db := w₁.db.deleteVectors (w₁.db.unitIdWhere (isStale path ids)) } by
      rw [deleteVectors, execute_of_faultFree hf hm, if_pos ht])]
  rw [bind_of_ok (hx _ _), hx]
  rfl

end Conn

namespace World

open Conn EStateM

variable {F : Floats} {s s₀ s' w₀ : World F} {embedder : Embedder F} {O : String → Prop} {i : String}
variable {u : KnowledgeUnit} {vector : Option (List F)} {texts : List String}

-- `s` is a state of a session in which others work as well, and `s₀` is the state which it would be in
-- without them. They agree on the rows that are not the business of the others.
structure Twin (embedder : Embedder F) (w₀ : World F) (O : String → Prop) (s s₀ : World F) : Prop where
  among : w₀.Working embedder s
  alone : w₀.Working embedder s₀
  rows  : s₀.db.SameOn O s.db
  bound : s₀.bound → s.bound

-- What an operation does to the rows of a state and to what it knows of its embedder.
structure Touches (O : String → Prop) (s s' : World F) : Prop where
  rows  : s.db.SameOn (¬O ·) s'.db
  bound : s.bound → s'.bound

-- An operation does the same in both states.
def Twinned {α : Type} (x : Conn F α) (embedder : Embedder F) (w₀ : World F) (O : String → Prop)
    (s s₀ : World F) : Prop :=
  (x s).outcome = (x s₀).outcome ∧ Twin embedder w₀ O (x s).state (x s₀).state

theorem Working.dimension_of_bound (h : w₀.Working embedder s) (hb : s.bound) :
    s.dimension = (ensureEmbeddingsBound embedder w₀).state.dimension ∧
      (ensureEmbeddingsBound embedder w₀).state.db.SameBinding s.db := by
  obtain hs | hs := h.settled
  case inr => exact ⟨hs.dimension, hs.db⟩
  case inl =>
    rw [ensure_of_bound (hs.bound ▸ hb)]
    exact ⟨hs.dimension, hs.db⟩

namespace Twin

theorem ensure (h₀ : w₀.Ready) (h : Twin embedder w₀ O s s₀) :
    Twinned (ensureEmbeddingsBound embedder) embedder w₀ O s s₀ := by
  obtain ⟨ho, hs⟩ := ensure_settled h₀ h.among.toReady h.among.settled
  obtain ⟨ho₀, hs₀⟩ := ensure_settled h₀ h.alone.toReady h.alone.settled
  have hb := (ensureEmbeddingsBound_post : (ensureEmbeddingsBound embedder).post _ s).left
  have hb₀ := (ensureEmbeddingsBound_post : (ensureEmbeddingsBound embedder).post _ s₀).left
  refine ⟨ho.trans ho₀.symm, h.among.ensure h₀, h.alone.ensure h₀, ?_, ?_⟩
  · exact ((Db.SameOn.of_binds hb₀.db).symm.trans h.rows).trans (.of_binds hb.db)
  · rw [hs.bound, hs₀.bound]
    exact id

-- An attempt to bind the embedder either fails in both states, or both are bound from then on.
theorem ensure_cases (h₀ : w₀.Ready) (h : Twin embedder w₀ O s s₀) :
    (∃ e s₁ s₁₀, ensureEmbeddingsBound embedder s = .error e s₁ ∧
      ensureEmbeddingsBound embedder s₀ = .error e s₁₀ ∧ Twin embedder w₀ O s₁ s₁₀) ∨
    ∃ s₁ s₁₀, ensureEmbeddingsBound embedder s = .ok () s₁ ∧
      ensureEmbeddingsBound embedder s₀ = .ok () s₁₀ ∧ Twin embedder w₀ O s₁ s₁₀ ∧ s₁₀.bound := by
  have ht : Twinned (ensureEmbeddingsBound embedder) embedder w₀ O s s₀ := h.ensure h₀
  have hb := (ensureEmbeddingsBound_post : (ensureEmbeddingsBound embedder).post _ s₀).right ()
  unfold Twinned at ht
  cases he : ensureEmbeddingsBound embedder s <;> cases he₀ : ensureEmbeddingsBound embedder s₀ <;>
    rw [he, he₀] at ht <;> obtain ⟨ho, ht⟩ := ht <;> cases ho
  case error.error.refl => exact .inl ⟨_, _, _, rfl, rfl, ht⟩
  case ok.ok.refl       =>
    rw [he₀] at hb
    exact .inr ⟨_, _, rfl, rfl, ht, hb rfl⟩

theorem getUnit (h : Twin embedder w₀ O s s₀) (hi : O i) : Twinned (getUnit i) embedder w₀ O s s₀ := by
  unfold Twinned
  rw [getUnit_of_faultFree h.among.faultFree, getUnit_of_faultFree h.alone.faultFree, h.rows.unit i hi]
  refine ⟨?_, h⟩
  have hr : s.db.relations.rows.filter (·.fromId = i) = s₀.db.relations.rows.filter (·.fromId = i) :=
    h.rows.relations i hi
  rw [hr]
  rfl

theorem hasEmbedding (h₀ : w₀.Ready) (h : Twin embedder w₀ O s s₀) (hi : O i) :
    Twinned (hasEmbedding embedder i) embedder w₀ O s s₀ := by
  unfold Twinned Conn.hasEmbedding
  obtain ⟨e, s₁, s₁₀, he, he₀, ht⟩ | ⟨s₁, s₁₀, he, he₀, ht, _⟩ := h.ensure_cases h₀
  case inl =>
    rw [bind_of_error he, bind_of_error he₀]
    exact ⟨rfl, ht⟩
  case inr =>
    rw [bind_of_ok he, bind_of_ok he₀, select_of_faultFree ht.among.faultFree,
      select_of_faultFree ht.alone.faultFree, ht.rows.vec i hi]
    exact ⟨rfl, ht⟩

theorem aembed (h : Twin embedder w₀ O s s₀) (hb : s₀.bound) :
    Twinned (aembed embedder texts) embedder w₀ O s s₀ := by
  have hd : s.dimension = s₀.dimension :=
    (h.among.dimension_of_bound (h.bound hb)).left.trans (h.alone.dimension_of_bound hb).left.symm
  have hw : w₀.Working embedder (Conn.aembed embedder texts s).state := h.among.aembed
  have hw₀ : w₀.Working embedder (Conn.aembed embedder texts s₀).state := h.alone.aembed
  unfold Twinned
  rw [aembed_of_faultFree h.among.faultFree] at hw ⊢
  rw [aembed_of_faultFree h.alone.faultFree] at hw₀ ⊢
  rw [hd] at hw ⊢
  cases ha : embedder.aembed s₀.dimension texts <;> rw [ha] at hw hw₀
  case ok    => exact ⟨rfl, hw, hw₀, h.rows, h.bound⟩
  case error => exact ⟨rfl, hw, hw₀, h.rows, h.bound⟩

theorem upsertUnit_none (h₀ : w₀.Ready) (h : Twin embedder w₀ O s s₀) (hr : u.relations = []) :
    Twinned (upsertUnit embedder u none) embedder w₀ O s s₀ := by
  have hw : w₀.Working embedder (Conn.upsertUnit embedder u none s).state := h.among.upsertUnit h₀
  have hw₀ : w₀.Working embedder (Conn.upsertUnit embedder u none s₀).state := h.alone.upsertUnit h₀
  unfold Twinned
  rw [upsertUnit_none_of_faultFree h.among.faultFree h.among.mode hr] at hw ⊢
  rw [upsertUnit_none_of_faultFree h.alone.faultFree h.alone.mode hr] at hw₀ ⊢
  exact ⟨rfl, hw, hw₀, h.rows.insertUnit, h.bound⟩

theorem upsertUnit_some {v : List F} (h₀ : w₀.Ready) (h : Twin embedder w₀ O s s₀)
    (hr : u.relations = []) : Twinned (upsertUnit embedder u (some v)) embedder w₀ O s s₀ := by
  have hw : w₀.Working embedder (Conn.upsertUnit embedder u (some v) s).state := h.among.upsertUnit h₀
  have hw₀ : w₀.Working embedder (Conn.upsertUnit embedder u (some v) s₀).state := h.alone.upsertUnit h₀
  unfold Twinned
  obtain ⟨e, s₁, s₁₀, he, he₀, ht⟩ | ⟨s₁, s₁₀, he, he₀, ht, hb⟩ := h.ensure_cases h₀
  case inl =>
    have hx : Conn.upsertUnit embedder u (some v) s = .error e s₁ := bind_of_error he
    have hx₀ : Conn.upsertUnit embedder u (some v) s₀ = .error e s₁₀ := bind_of_error he₀
    rw [hx, hx₀]
    exact ⟨rfl, ht⟩
  rw [upsertUnit_some_of_bound he ht.among.faultFree ht.among.mode hr] at hw ⊢
  rw [upsertUnit_some_of_bound he₀ ht.alone.faultFree ht.alone.mode hr] at hw₀ ⊢
  obtain ⟨t, hs⟩ := Option.isSome_iff_exists.mp (ht.among.table (ht.bound hb))
  obtain ⟨t₀, hs₀⟩ := Option.isSome_iff_exists.mp (ht.alone.table hb)
  have hwidth : t.width = t₀.width := by
    have hsame := (ht.among.dimension_of_bound (ht.bound hb)).right.symm.trans
      (ht.alone.dimension_of_bound hb).right
    have hwd := hsame.width
    rw [Db.width?, Db.width?, hs, hs₀] at hwd
    exact hwd.symm
  have hf : t.Fits (F.cast v) ↔ t₀.Fits (F.cast v) := by
    unfold Embeddings.Fits
    rw [hwidth]
  have hv := fun (w : World F) (e : Embeddings F) => insertVector_of_faultFree (w := w) (e := e) (i := u.id) (v := v)
  rw [hv { s₁ with db := s₁.db.insertUnit u.toUnitRow } t hs ht.among.faultFree ht.among.mode] at hw ⊢
  rw [hv { s₁₀ with db := s₁₀.db.insertUnit u.toUnitRow } t₀ hs₀ ht.alone.faultFree ht.alone.mode] at hw₀ ⊢
  by_cases hfit : t.Fits (F.cast v)
  case pos =>
    rw [dif_pos hfit] at hw ⊢
    rw [dif_pos (hf.mp hfit)] at hw₀ ⊢
    exact ⟨rfl, hw, hw₀, ht.rows.insertUnit.insertVector hs₀ hs, ht.bound⟩
  case neg =>
    rw [dif_neg hfit] at hw ⊢
    rw [dif_neg (mt hf.mpr hfit)] at hw₀ ⊢
    exact ⟨rfl, hw, hw₀, ht.rows.insertUnit, ht.bound⟩

theorem deleteStaleUnits {path : String} {ids : List String} (h₀ : w₀.Ready)
    (h : Twin embedder w₀ O s s₀) : Twinned (deleteStaleUnits embedder path ids) embedder w₀ O s s₀ := by
  have hw : w₀.Working embedder (Conn.deleteStaleUnits embedder path ids s).state :=
    h.among.deleteStaleUnits h₀
  have hw₀ : w₀.Working embedder (Conn.deleteStaleUnits embedder path ids s₀).state :=
    h.alone.deleteStaleUnits h₀
  unfold Twinned
  obtain ⟨e, s₁, s₁₀, he, he₀, ht⟩ | ⟨s₁, s₁₀, he, he₀, ht, hb⟩ := h.ensure_cases h₀
  case inl =>
    unfold Conn.deleteStaleUnits
    rw [bind_of_error he, bind_of_error he₀]
    exact ⟨rfl, ht⟩
  case inr =>
    rw [deleteStaleUnits_of_bound he ht.among.faultFree ht.among.mode (ht.among.table (ht.bound hb))] at hw ⊢
    rw [deleteStaleUnits_of_bound he₀ ht.alone.faultFree ht.alone.mode (ht.alone.table hb)] at hw₀ ⊢
    exact ⟨rfl, hw, hw₀, ht.rows.dropStale, ht.bound⟩

end Twin
namespace Touches

theorem refl : Touches O s s :=
  ⟨.refl, id⟩

theorem trans {s'' : World F} (h : Touches O s s') (h' : Touches O s' s'') : Touches O s s'' :=
  ⟨h.rows.trans h'.rows, h'.bound ∘ h.bound⟩

theorem of_binds {m : String} (h : s.Binds m s') : Touches O s s' :=
  ⟨.of_binds h.db, h.bound⟩

theorem of_reads (h : s.Reads s') : Touches O s s' := by
  obtain ⟨f, rfl⟩ := h
  exact ⟨.refl, id⟩

theorem ensure : Touches O s (ensureEmbeddingsBound embedder s).state :=
  .of_binds (ensureEmbeddingsBound_post : (ensureEmbeddingsBound embedder).post _ s).left

theorem aembed : Touches O s (aembed embedder texts s).state := by
  obtain ⟨f, hw⟩ := (aembed_post : (Conn.aembed embedder texts).post _ s).left
  rw [hw]
  exact ⟨.refl, id⟩

theorem upsertUnit (h₀ : w₀.Ready) (h : w₀.Working embedder s) (hr : u.relations = []) (hu : O u.id) :
    Touches O s (upsertUnit embedder u vector s).state := by
  have hrow : ∀ db : Db F, db.SameOn (¬O ·) (db.insertUnit u.toUnitRow) :=
    fun _ => .of_insertUnit (not_not_intro hu)
  cases vector
  case none =>
    rw [upsertUnit_none_of_faultFree h.faultFree h.mode hr]
    exact ⟨hrow _, id⟩
  case some v =>
    have hstart : Touches O s (ensureEmbeddingsBound embedder s).state := ensure
    have hw := h.ensure h₀
    have hb := (ensureEmbeddingsBound_post : (ensureEmbeddingsBound embedder).post _ s).right ()
    cases he : ensureEmbeddingsBound embedder s <;> rw [he] at hstart hw hb
    case error e s₁ =>
      have hx : Conn.upsertUnit embedder u (some v) s = .error e s₁ := bind_of_error he
      rw [hx]
      exact hstart
    case ok s₁ =>
      obtain ⟨t, hs⟩ := Option.isSome_iff_exists.mp (hw.table (hb rfl))
      rw [upsertUnit_some_of_bound he hw.faultFree hw.mode hr, insertVector_of_faultFree
        (w := { s₁ with db := s₁.db.insertUnit u.toUnitRow }) hs hw.faultFree hw.mode]
      refine hstart.trans ?_
      split
      case isTrue  => exact ⟨(hrow _).trans (.of_insertVector hs (not_not_intro hu)), id⟩
      case isFalse => exact ⟨hrow _, id⟩

theorem deleteStaleUnits {path : String} {ids : List String} (h₀ : w₀.Ready) (h : w₀.Working embedder s)
    (hu : ∀ u ∈ s.db.units, isStale path ids u → O u.id) :
    Touches O s (deleteStaleUnits embedder path ids s).state := by
  have hstart := (ensureEmbeddingsBound_post : (ensureEmbeddingsBound embedder).post _ s)
  have hw := h.ensure h₀
  cases he : ensureEmbeddingsBound embedder s <;> rw [EStateM.post, he] at hstart <;> rw [he] at hw
  case error e s₁ =>
    have hx : Conn.deleteStaleUnits embedder path ids s = .error e s₁ := bind_of_error he
    rw [hx]
    exact .of_binds hstart.left
  case ok s₁ =>
    rw [deleteStaleUnits_of_bound he hw.faultFree hw.mode (hw.table (hstart.right () rfl))]
    refine (of_binds hstart.left).trans ⟨.of_dropStale fun u hm hstale => not_not_intro ?_, id⟩
    exact hu u (hstart.left.db.units ▸ hm) hstale

end Touches
end World
