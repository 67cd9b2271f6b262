import CodeRag.Storage.Theorems.DuckDB
import CodeRag.Storage.Theorems.Ready

-- A search agrees with the lookup of single units.

namespace Db

variable {F : Floats} {D : Type} [LinearOrder D] {db : Db F} {e : Embeddings F} {distance : List F → D}

-- The units with a vector are the rows of the join of both tables.
private def join (db : Db F) (rows : List (VecRow F)) : List UnitRow :=
  rows.filterMap (db.units.find? ·.id)

private theorem mem_join (he : db.embeddings = some e) {rows : List (VecRow F)}
    (hr : rows.Perm e.rows.rows) {u : UnitRow} :
    u ∈ db.join rows ↔ u ∈ db.units ∧ (db.vec? u.id).isSome := by
  rw [vec?_of_embeddings he, Option.isSome_map, Table.find?_isSome_iff, join, List.mem_filterMap]
  constructor
  case mp =>
    rintro ⟨r, hm, hf⟩
    exact ⟨Table.mem_of_find? hf, r, hr.subset hm, (Table.key_of_find? hf).symm⟩
  case mpr =>
    rintro ⟨hu, r, hm, hk⟩
    exact ⟨r, hr.symm.subset hm, Table.find?_eq_some_iff.mpr ⟨hu, hk.symm⟩⟩

private theorem nodup_join {rows : List (VecRow F)} (hr : rows.Perm e.rows.rows) :
    ((db.join rows).map (·.id)).Nodup := by
  have hn : rows.Pairwise fun r r' => r.id ≠ r'.id :=
    List.pairwise_map.mp ((hr.map VecRow.id).nodup_iff.mpr e.rows.nodup)
  refine List.pairwise_map.mpr (hn.filterMap _ fun r r' hne u hu u' hu' he => hne ?_)
  have hi : u.id = r.id := Table.key_of_find? hu
  have hi' : u'.id = r'.id := Table.key_of_find? hu'
  exact hi.symm.trans (he.trans hi')

private theorem length_join (he : db.embeddings = some e) {rows : List (VecRow F)}
    (hr : rows.Perm e.rows.rows) :
    (db.join rows).length = db.units.rows.countP fun u => (db.vec? u.id).isSome := by
  rw [List.countP_eq_length_filter]
  refine List.Perm.length_eq <| (List.perm_ext_iff_of_nodup (nodup_join hr).of_map
    ((db.units.nodup.of_map _).filter _)).mpr fun u => ?_
  rw [mem_join he hr, List.mem_filter]
  rfl

-- The rows of a sorted list of vectors are sorted by their distance.
private theorem pairwise_join (he : db.embeddings = some e) {rows : List (VecRow F)}
    (hr : rows.Perm e.rows.rows) (hs : rows.Pairwise fun r r' => distance r.vec ≤ distance r'.vec) :
    (db.join rows).Pairwise fun u u' => ∀ v v', db.vec? u.id = some v → db.vec? u'.id = some v' →
      distance v ≤ distance v' := by
  have hv : ∀ r ∈ rows, ∀ u, db.units.find? r.id = some u → db.vec? u.id = some r.vec := by
    intro r hm u hf
    have hi : u.id = r.id := Table.key_of_find? hf
    rw [vec?_of_embeddings he, hi, ←key_vecRow, Table.find?_of_mem (hr.subset hm)]
    rfl
  refine (List.Pairwise.and_mem.mp hs).filterMap _ ?_
  rintro r r' ⟨hm, hm', hle⟩ u hu u' hu' v v' h h'
  rw [hv r hm u hu, Option.some.injEq] at h
  rw [hv r' hm' u' hu', Option.some.injEq] at h'
  rwa [←h, ←h']

-- `us` are the `limit` units whose vectors have the smallest distance.
structure Nearest (db : Db F) (distance : List F → D) (limit : Nat) (us : List KnowledgeUnit) :
    Prop where
  count    : us.length = min limit (db.units.rows.countP fun u => (db.vec? u.id).isSome)
  distinct : (us.map (·.id)).Nodup
  stored   : ∀ u ∈ us, u.toUnitRow ∈ db.units ∧ (db.vec? u.id).isSome
  ordered  : us.Pairwise fun u u' => ∀ v v', db.vec? u.id = some v → db.vec? u'.id = some v' →
    distance v ≤ distance v'
  closest  : ∀ u ∈ us, ∀ u' ∈ db.units, u'.id ∉ us.map (·.id) → ∀ v v', db.vec? u.id = some v →
    db.vec? u'.id = some v' → distance v ≤ distance v'

private theorem Nearest.congr {db' : Db F} {limit : Nat} {us : List KnowledgeUnit}
    (h : db'.Nearest distance limit us) (hu : db'.units = db.units)
    (hv : ∀ i, db'.vec? i = db.vec? i) : db.Nearest distance limit us := by
  obtain ⟨hc, hd, hs, ho, hcl⟩ := h
  simp only [hu, hv] at hc hs ho hcl
  exact ⟨hc, hd, hs, ho, hcl⟩

private theorem nearest_take (he : db.embeddings = some e) {rows : List (VecRow F)}
    (hr : rows.Perm e.rows.rows) (hs : rows.Pairwise fun r r' => distance r.vec ≤ distance r'.vec)
    {limit : Nat} {us : List KnowledgeUnit}
    (hu : us.map (·.toUnitRow) = (db.join rows).take limit) : db.Nearest distance limit us := by
  have hid : us.map (·.id) = ((db.join rows).take limit).map (·.id) := by
    rw [←hu, List.map_map]
    rfl
  have hp := pairwise_join he hr hs
  have hm : ∀ u ∈ us, u.toUnitRow ∈ (db.join rows).take limit :=
    fun u h => hu ▸ List.mem_map_of_mem h
  refine ⟨?_, ?_, fun u h => ?_, ?_, fun u h u' hu' hn v v' hv hv' => ?_⟩
  · rw [←length_join he hr, ←List.length_take, ←hu, List.length_map]
  · rw [hid]
    exact (nodup_join hr).sublist ((List.take_sublist ..).map _)
  · exact (mem_join he hr).mp (List.mem_of_mem_take (hm u h))
  · have := hp.sublist (List.take_sublist limit _)
    rwa [←hu, List.pairwise_map] at this
  · have hj : u' ∈ (db.join rows).take limit ++ (db.join rows).drop limit := by
      rw [List.take_append_drop]
      exact (mem_join he hr).mpr ⟨hu', by rw [hv']; rfl⟩
    obtain ht | hd := List.mem_append.mp hj
    case inl => exact absurd (hid ▸ List.mem_map_of_mem ht) hn
    case inr =>
      rw [←List.take_append_drop limit (db.join rows)] at hp
      exact (List.pairwise_append.mp hp).right.right _ (hm u h) _ hd v v' hv hv'

end Db

namespace Conn

open EStateM World

variable {F : Floats} {D : Type} [LinearOrder D] {w w' : World F} {embedder : Embedder F}

-- `distance v q` is the distance of the vector `v` from the query.
def byDistance (distance : List F → List F → D) (q : List F) (r r' : VecRow F) : Bool :=
  distance r.vec q ≤ distance r'.vec q

private theorem closestUnits_join {distance : List F → List F → D} {q : List F}
    {queryLength dim limit : Nat} :
    (closestUnits (byDistance distance q) queryLength dim limit).post (fun r w' => w.Reads w' ∧
      ∀ rows, r = .ok rows → ∃ e, w.db.embeddings = some e ∧
        rows = (w.db.join (e.rows.rows.mergeSort (byDistance distance q))).take limit) w := by
  unfold closestUnits statement EStateM.post
  dsimp only
  split
  case isTrue => exact ⟨.tick, fun _ h => by cases h⟩
  case isFalse =>
    rw [tick_db]
    split
    case h_1 => exact ⟨.tick, fun _ h => by cases h⟩
    case h_2 e he =>
      split
      case isTrue  => exact ⟨.tick, fun _ h => by cases h⟩
      case isFalse => exact ⟨.tick, fun rows h => ⟨e, he, by cases h; rfl⟩⟩

theorem getUnit_of_faultFree {i : String} (h : w.FaultFree) : getUnit i w =
    .ok ((w.db.units.find? i).map fun u =>
      { toUnitRow := u, relations := w.db.relations.rows.filter (·.fromId = i) }) w := by
  unfold getUnit
  rw [bind_of_ok (select_of_faultFree h)]
  cases w.db.units.find? i
  case none => rfl
  case some u => exact (bind_of_ok (select_of_faultFree h)).trans rfl

-- A search by an embedder that is bound to the width of the table does not raise.
private theorem searchUnits_returns {closer : List F → VecRow F → VecRow F → Bool} {query : String}
    {limit d : Nat} {e : Embeddings F} {q : List F} {qs : List (List F)} (hf : w.FaultFree)
    (hb : w.bound) (hd : w.dimension = some d) (he : w.db.embeddings = some e)
    (hw : e.width = some d) (hq : embedder.aembed (some d) [query] = .ok (q :: qs))
    (hl : q.length = d) : ∃ us w', searchUnits embedder closer query limit w = .ok us w' := by
  unfold searchUnits
  rw [bind_of_ok (ensure_of_bound hb), bind_of_ok (show dimension w = .ok d w by simp [dimension, hd])]
  have hembed : aembed embedder [query] w =
      .ok (q :: qs) { w with calls := w.calls ++ [.aembed [query]] } := by
    simp [aembed, hf.faults_eq, hd, hq, hf.tick]
  rw [bind_of_ok hembed]
  dsimp only
  have hrows : ∀ w₁ : World F, w₁.FaultFree → w₁.db = w.db →
      ∃ rows, closestUnits (closer (F.cast q)) q.length d limit w₁ = .ok rows w₁ := by
    intro w₁ hf₁ hdb
    unfold closestUnits
    rw [statement_of_faultFree hf₁, hdb, he]
    exact ⟨_, by simp [hl, hw]; rfl⟩
  have hf' : ({ w with calls := w.calls ++ [.aembed [query]] } : World F).FaultFree := hf
  obtain ⟨rows, hrows⟩ := hrows _ hf' rfl
  rw [bind_of_ok hrows]
  split
  case isTrue  => exact ⟨_, _, rfl⟩
  case isFalse =>
    rw [bind_of_ok (select_of_faultFree hf')]
    exact ⟨_, _, rfl⟩

private theorem nearest_of_searchUnits {distance : List F → List F → D} {query : String} {limit : Nat}
    {us : List KnowledgeUnit}
    (h : searchUnits embedder (byDistance distance) query limit w = .ok us w') :
    (∃ dim q qs, embedder.aembed dim [query] = .ok (q :: qs) ∧
      w.db.Nearest (distance · (F.cast q)) limit us) ∧
      ∀ u ∈ us, ∀ s : World F, s.FaultFree → s.db = w.db → getUnit u.id s = .ok (some u) s := by
  have hpost : (searchUnits embedder (byDistance distance) query limit).post
      (fun r _ => ∀ us, r = .ok us → (∃ dim q qs, embedder.aembed dim [query] = .ok (q :: qs) ∧
          w.db.Nearest (distance · (F.cast q)) limit us) ∧
        ∀ u ∈ us, u.relations = w.db.relations.rows.filter (·.fromId = u.id)) w := by
    refine post_bind ensureEmbeddingsBound_post (fun _ w₁ ⟨hb, _⟩ => ?_) fun _ _ _ => nofun
    refine post_bind dimension_post (fun dim w₂ h₂ => ?_) fun _ _ _ => nofun
    refine post_bind aembed_post (fun vectors w₃ ⟨⟨f, h₃⟩, hv⟩ => ?_) fun _ _ _ => nofun
    replace hv := hv vectors rfl
    subst h₂ h₃
    cases vectors
    case nil => exact post_throw nofun
    case cons q qs _ =>
      refine post_bind closestUnits_join (fun rows w₄ ⟨⟨f₄, h₄⟩, hrows⟩ => ?_) fun _ _ _ => nofun
      obtain ⟨e, he, hrows⟩ := hrows rows rfl
      have near : ∀ us : List KnowledgeUnit, us.map (·.toUnitRow) = rows →
          w.db.Nearest (distance · (F.cast q)) limit us := by
        intro us hus
        refine Db.Nearest.congr ?_ hb.db.units fun _ => hb.db.vec?
        refine Db.nearest_take he (List.mergeSort_perm _ _) ?_ (hus.trans hrows)
        have htrans : ∀ a b c, byDistance distance (F.cast q) a b → byDistance distance (F.cast q) b c →
            byDistance distance (F.cast q) a c := fun a b c => by simpa [byDistance] using le_trans
        have htotal : ∀ a b,
            (byDistance distance (F.cast q) a b || byDistance distance (F.cast q) b a) = true :=
          fun a b => by simpa [byDistance] using le_total _ _
        simpa [byDistance] using List.pairwise_mergeSort htrans htotal e.rows.rows
      split
      case isTrue hempty =>
        refine post_pure fun us hus => ?_
        cases hus
        exact ⟨⟨_, q, qs, hv, near [] (List.isEmpty_iff.mp hempty).symm⟩, nofun⟩
      case isFalse =>
        refine post_bind select_post (fun rels w₅ ⟨_, hrels⟩ => ?_) fun _ _ _ => nofun
        refine post_pure fun us hus => ?_
        cases hus
        refine ⟨⟨_, q, qs, hv, near _ (by rw [List.map_map]; exact List.map_id _)⟩, fun u hu => ?_⟩
        obtain ⟨row, hrow, rfl⟩ := List.mem_map.mp hu
        have hr : w₄.db.relations = w.db.relations := by rw [h₄]; exact hb.db.relations
        rw [hrels rels rfl, hr, List.filter_filter]
        refine List.filter_congr fun r _ => ?_
        by_cases hf : r.fromId = row.id
        case pos => simpa [hf] using ⟨row, hrow, rfl⟩
        case neg => simp [hf]
  rw [EStateM.post, h] at hpost
  obtain ⟨⟨dim, q, qs, hv, hn⟩, hr⟩ := hpost us rfl
  refine ⟨⟨dim, q, qs, hv, hn⟩, fun u hu s hf hs => ?_⟩
  have hrow : w.db.units.find? u.id = some u.toUnitRow := Table.find?_of_mem (hn.stored u hu).left
  rw [getUnit_of_faultFree hf, hs, hrow, Option.map_some, ←hr u hu]

-- A search returns the nearest units, each as a lookup of it does, and it returns whenever the
-- embedder is bound to the width of the table.
theorem searchUnits_nearest (embedder : Embedder F) (distance : List F → List F → D) (query : String)
    (limit : Nat) (w : World F) :
    (∀ us w', searchUnits embedder (byDistance distance) query limit w = .ok us w' →
      (∃ dim q qs, embedder.aembed dim [query] = .ok (q :: qs) ∧
        w.db.Nearest (distance · (F.cast q)) limit us) ∧
      ∀ u ∈ us, ∀ s : World F, s.FaultFree → s.db = w.db → getUnit u.id s = .ok (some u) s) ∧
    ∀ d e q qs, w.FaultFree → w.bound → w.dimension = some d → w.db.embeddings = some e →
      e.width = some d → embedder.aembed (some d) [query] = .ok (q :: qs) → q.length = d →
      ∃ us w', searchUnits embedder (byDistance distance) query limit w = .ok us w' :=
  ⟨fun _ _ h => nearest_of_searchUnits h, fun _ _ _ _ hf hb hd he hw hq hl =>
    searchUnits_returns hf hb hd he hw hq hl⟩

section Sample

private def lengths : Embedder naturals where
  modelId        := "m"
  aembed _ texts := .ok (texts.map fun t => [t.length])

private def row (i : String) : UnitRow where
  id        := i
  kind      := .function
  name      := i
  path      := "a.py"
  signature := none
  docstring := none
  summary   := none
  codeHash  := i
  tags      := []
  metadata  := []

private def relation (i j : String) : Relation where
  fromId := i
  toId   := j
  type   := .calls

private def vecRow (i : String) (n : Nat) : VecRow naturals where
  id  := i
  vec := [n]

-- The unit of the nearest vector is gone.
private def vectors : Embeddings naturals :=
  (((Embeddings.create 1 .one).insert (vecRow "f" 5) (by decide)).insert (vecRow "gone" 1)
    (by decide)).insert (vecRow "g" 2) (by decide)

private def indexed : World naturals :=
  { World.connect .empty .readWrite (some 1) (fun _ => false) (fun _ => false) with
    bound := true
    db    := { (Db.empty : Db naturals) with
      units      := ((Table.empty.insert (row "f")).insert (row "g")).insert (row "h")
      embeddings := some vectors
      relations  := ((Table.empty.insert (relation "f" "g")).insert (relation "f" "h")).insert
        (relation "g" "f") } }

private def distance (v q : List Nat) : Nat :=
  ((v.zip q).map fun c => (c.1 - c.2) + (c.2 - c.1)).sum

-- Two units have a vector. Both are found, each with its relations.
theorem searchUnits_nearest_sample : ∃ us w',
    searchUnits lengths (byDistance distance) "q" 3 indexed = .ok us w' ∧ us.length = 2 ∧
      (∃ q, indexed.db.Nearest (distance · q) 3 us) ∧
      ∀ u ∈ us, getUnit u.id indexed = .ok (some u) indexed ∧ u.relations ≠ [] := by
  have ⟨hany, hret⟩ := searchUnits_nearest lengths distance "q" 3 indexed
  have ⟨us, w', h⟩ := hret 1 vectors [1] [] rfl rfl rfl rfl rfl rfl rfl
  have ⟨⟨_, q, _, _, hn⟩, hu⟩ := hany us w' h
  refine ⟨us, w', h, hn.count, ⟨_, hn⟩, fun u hm => ⟨hu u hm indexed rfl rfl, ?_⟩⟩
  obtain ⟨hrow, hv⟩ := hn.stored u hm
  have hget := (getUnit_of_faultFree (i := u.id) (show indexed.FaultFree from rfl)).symm.trans
    (hu u hm indexed rfl rfl)
  rw [show indexed.db.units.find? u.id = some u.toUnitRow from Table.find?_of_mem hrow] at hget
  simp only [Option.map_some, Result.ok.injEq, Option.some.injEq, and_true] at hget
  rw [←hget]
  have hrow : u.toUnitRow ∈ [row "f", row "g", row "h"] := hrow
  simp only [List.mem_cons, List.not_mem_nil, or_false] at hrow
  show indexed.db.relations.rows.filter (·.fromId = u.id) ≠ []
  obtain hr | hr | hr := hrow
  · rw [show u.id = "f" from congrArg UnitRow.id hr]
    decide
  · rw [show u.id = "g" from congrArg UnitRow.id hr]
    decide
  · rw [show u.id = "h" from congrArg UnitRow.id hr] at hv
    exact absurd hv (by decide)

end Sample
end Conn
