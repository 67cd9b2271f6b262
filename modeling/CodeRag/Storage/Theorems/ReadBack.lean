import CodeRag.Storage.Columns
import CodeRag.Storage.Theorems.Search

-- What is read of a unit after it has been stored over an earlier version of itself.

open EStateM

namespace Conn

variable {F : Floats} {embedder : Embedder F} {u : KnowledgeUnit} {vector : Option (List F)}
variable {w w' s : World F} {i : String}

-- The unit reads back as it was written, and nothing else has changed.
structure ReadsBack (u : KnowledgeUnit) (vector : Option (List F)) (w w' : World F) : Prop where
  unit      : ∀ s : World F, s.FaultFree → s.db = w'.db →
    ∃ rels, fetchUnit u.id s = .ok (some { u with relations := rels }) s ∧
      ∀ r, r ∈ rels ↔ r ∈ u.relations
  vec       : w'.db.vec? u.id = vector.or (w.db.vec? u.id)
  units     : ∀ i ≠ u.id, w'.db.units.find? i = w.db.units.find? i
  vecs      : ∀ i ≠ u.id, w'.db.vec? i = w.db.vec? i
  relations : ∀ r, r.fromId ≠ u.id → (r ∈ w'.db.relations ↔ r ∈ w.db.relations)

-- A stored row reads back from its columns, with all relations that start at it.
theorem fetchUnit_of_find? {row : UnitRow} (h : s.db.units.find? i = some row)
    (hm : (Json.obj row.metadata).WellFormed) (hf : s.FaultFree) : fetchUnit i s = .ok (some
      { toUnitRow := row, relations := s.db.relations.rows.filter (·.fromId = i) }) s := by
  have hw : ∀ v, s.db.units.find? i = some v → (Json.obj v.metadata).WellFormed := by
    rw [h]
    rintro _ ⟨⟩
    exact hm
  rw [fetchUnit_eq hw, getUnit_of_faultFree hf, h, Option.map_some]

-- What storing a unit leaves when it returns.
structure Stored (u : KnowledgeUnit) (vector : Option (List F)) (w w' : World F) : Prop where
  units     : w'.db.units = w.db.units.insert u.toUnitRow
  vec       : ∀ i, w'.db.vec? i =
    if i = u.id then (vector.map F.cast).or (w.db.vec? i) else w.db.vec? i
  relations : ∀ r, r ∈ w'.db.relations ↔ r ∈ w.db.relations ∨ r ∈ u.relations

theorem stored_of_upsertUnit (h : upsertUnit embedder u vector w = .ok () w') :
    Stored u vector w w' := by
  have hp : (upsertUnit embedder u vector).post _ w := upsertUnit_post
  rw [EStateM.post, h] at hp
  obtain ⟨w₁, hp⟩ := hp
  have hu : Upserts embedder u vector w w₁ (.ok ()) w' := hp
  have hr : w₁.db.relations = w.db.relations := hu.binds.db.relations
  have hv : ∀ i, w₁.db.vec? i = w.db.vec? i := fun _ => hu.binds.db.vec?
  refine ⟨(hu.ok rfl).left, fun i => ?_, fun r => ⟨fun hm => ?_, ?_⟩⟩
  · cases vector
    case some v => rw [(hu.ok rfl).right v rfl i]; rfl
    case none   =>
      obtain h | ⟨_, v, hn, _⟩ := hu.stores.vec
      · rw [h i, hv i, Option.map_none, Option.none_or, ite_self]
      · cases hn
  · rw [←hr]
    exact hu.stores.relations r hm
  · rintro (hm | hm)
    · exact hu.stores.kept r (hr ▸ hm)
    · exact hu.stored rfl r hm

-- A unit that is stored reads back as written iff its vector is one that the column keeps and no
-- relation of its earlier version is gone from it: those that are gone are never deleted.
theorem readsBack_iff (hm : (Json.obj u.metadata).WellFormed) (hr : ∀ r ∈ u.relations, r.fromId = u.id)
    (h : upsertUnit embedder u vector w = .ok () w') :
    ReadsBack u vector w w' ↔ (∀ v ∈ vector, F.cast v = v) ∧
      ∀ r ∈ w.db.relations, r.fromId = u.id → r ∈ u.relations := by
  have hs := stored_of_upsertUnit h
  have hf : w'.db.units.find? u.id = some u.toUnitRow := by
    rw [hs.units]
    exact Table.find?_insert_self
  constructor
  case mp =>
    intro hb
    refine ⟨?_, fun r hmem hid => ?_⟩
    · rintro v rfl
      have hv := (hs.vec u.id).symm.trans hb.vec
      rw [if_pos rfl] at hv
      exact Option.some.inj hv
    obtain ⟨s, hff, hdb⟩ : ∃ s : World F, s.FaultFree ∧ s.db = w'.db :=
      ⟨{ w' with faults := fun _ => false }, rfl, rfl⟩
    obtain ⟨rels, hfetch, hrels⟩ := hb.unit s hff hdb
    cases hfetch.symm.trans (fetchUnit_of_find? (hdb ▸ hf) hm hff)
    rw [hdb] at hrels
    refine (hrels r).mp (List.mem_filter.mpr ⟨?_, by simpa using hid⟩)
    exact (hs.relations r).mpr (.inl hmem)
  case mpr =>
    rintro ⟨hkept, hold⟩
    refine ⟨fun s hff hdb => ?_, ?_, fun i hi => ?_, fun i hi => ?_, fun r hid => ?_⟩
    · refine ⟨_, fetchUnit_of_find? (hdb ▸ hf) hm hff, fun r => ?_⟩
      have hmem : r ∈ s.db.relations ↔ r ∈ w.db.relations ∨ r ∈ u.relations := by
        rw [hdb]
        exact hs.relations r
      rw [List.mem_filter, Table.mem_rows, hmem, decide_eq_true_eq]
      constructor
      · rintro ⟨hmem | hmem, hid⟩
        · exact hold r hmem hid
        · exact hmem
      · exact fun hmem => ⟨.inr hmem, hr r hmem⟩
    · rw [hs.vec, if_pos rfl]
      cases vector
      case none   => rfl
      case some v => rw [Option.map_some, hkept v rfl]
    · rw [hs.units, Table.find?_insert_of_ne hi]
    · rw [hs.vec, if_neg hi]
    · rw [hs.relations]
      exact or_iff_left fun hmem => hid (hr r hmem)

section Sample

private def embedder₀ : Embedder naturals where
  modelId        := "m"
  aembed _ texts := .ok (texts.map fun t => [t.length])

private def unit (rels : List Relation) : KnowledgeUnit where
  id        := "f"
  kind      := .function
  name      := "f"
  path      := "a.py"
  signature := none
  docstring := none
  summary   := none
  codeHash  := "h"
  tags      := ["t"]
  metadata  := [("line", .num 3)]
  relations := rels

private def edge (type : RelationType) : Relation where
  fromId := "f"
  toId   := "g"
  type   := type

private def vecRow₀ (n : Nat) : VecRow naturals where
  id  := "f"
  vec := [n]

-- An index with a unit that has a relation and a vector.
private def first : World naturals :=
  { World.connect .empty .readWrite (some 1) (fun _ => false) (fun _ => false) with
    bound := true
    db    := { (Db.empty : Db naturals) with
      units      := Table.empty.insert (unit []).toUnitRow
      embeddings := some ((Embeddings.create 1 .one).insert (vecRow₀ 1) (by decide))
      relations  := Table.empty.insert (edge .imports) } }

-- The second version has one more relation and another vector.
private def more : World naturals :=
  (upsertUnit embedder₀ (unit [edge .imports, edge .calls]) (some (vecRow₀ 2).vec) first).state

-- Another second version has no relations.
private def fewer : World naturals :=
  (upsertUnit embedder₀ (unit []) none first).state

private theorem unit_wf {l : List Relation} : (Json.obj (unit l).metadata).WellFormed :=
  .obj (List.nodup_singleton _) (by simp [unit, Json.WellFormed.num])

theorem readsBack_iff_sample :
    ReadsBack (unit [edge .imports, edge .calls]) (some (vecRow₀ 2).vec) first more := by
  have h : upsertUnit embedder₀ (unit [edge .imports, edge .calls]) (some (vecRow₀ 2).vec)
      first = .ok () more := rfl
  refine (readsBack_iff unit_wf (by simp [unit, edge]) h).mpr ⟨by simp, ?_⟩
  decide

theorem dropped_relation_kept : upsertUnit embedder₀ (unit []) none first = .ok () fewer ∧
    ¬ReadsBack (unit []) none first fewer := by
  refine ⟨rfl, fun hb => ?_⟩
  have hff : fewer.FaultFree := rfl
  have hf : fewer.db.units.find? "f" = some (unit []).toUnitRow := rfl
  obtain ⟨rels, hfetch, hrels⟩ := hb.unit fewer hff rfl
  have hu := fetchUnit_of_find? hf (unit_wf (l := [])) hff
  cases hfetch.symm.trans hu
  exact List.not_mem_nil ((hrels (edge .imports)).mp (by decide))

end Sample
end Conn
