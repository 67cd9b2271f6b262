import CodeRag.Services.Sync
import CodeRag.Services.Theorems.Project
import CodeRag.Services.Theorems.Sample

-- Which rows the sync of a whole project leaves in the index.

namespace Db

open Conn (isStale)

variable {F : Floats} {db db' db'' : Db F} {yields : String → String → Prop}
variable {selected : String → Prop} {identity m : String} {ids : List String} {u : UnitRow}
variable {vector : Option (List F)}

def HasUnit (db : Db F) (i path : String) : Prop :=
  ∃ u ∈ db.units, u.id = i ∧ u.path = path

-- What files do to the tables that yield the units `yields` and have the stored paths `selected`:
-- only yielded rows are added, rows of other ids are only deleted at the selected paths, a vector of
-- another id is deleted with its row, and one without a row is left alone.
structure Gathers (yields : String → String → Prop) (selected : String → Prop) (db db' : Db F) :
    Prop where
  rows    : ∀ u ∈ db'.units, yields u.id u.path ∨ u ∈ db.units
  spared  : ∀ u ∈ db.units, (∀ p, ¬yields u.id p) → ¬selected u.path → u ∈ db'.units
  backed  : ∀ i, (∀ p, ¬yields i p) → ((db.vec? i).isSome → (db.units.find? i).isSome) →
    (db'.vec? i).isSome → (db'.units.find? i).isSome
  orphans : ∀ i, (∀ p, ¬yields i p) → db.units.find? i = none →
    db'.units.find? i = none ∧ db'.vec? i = db.vec? i

namespace Gathers

theorem of_eq (hu : ∀ u, u ∈ db'.units ↔ u ∈ db.units)
    (hv : ∀ i, db.units.find? i = none → db'.vec? i = db.vec? i) : db.Gathers yields selected db' where
  rows u h        := .inr ((hu u).mp h)
  spared u h _ _  := (hu u).mpr h
  backed i _ hb h := by
    rw [Table.find?_eq_of_mem_iff hu i]
    cases hf : db.units.find? i
    case some => rfl
    case none => rw [←hf]; exact hb (hv i hf ▸ h)
  orphans i _ h   := ⟨Table.find?_eq_of_mem_iff hu i ▸ h, hv i h⟩

theorem of_binds (h : db.Binds m db') : db.Gathers yields selected db' :=
  of_eq (fun u => by rw [h.units]) fun _ _ => h.vec?

theorem trans (h : db.Gathers yields selected db') (h' : db'.Gathers yields selected db'') :
    db.Gathers yields selected db'' where
  rows u hu         := (h'.rows u hu).elim .inl (h.rows u)
  spared u hu hi hp := h'.spared u (h.spared u hu hi hp) hi hp
  backed i hi hb    := h'.backed i hi (h.backed i hi hb)
  orphans i hi hu   :=
    have ⟨hu', hv⟩ := h.orphans i hi hu
    ⟨(h'.orphans i hi hu').left, (h'.orphans i hi hu').right.trans hv⟩

-- Storing a yielded unit does not concern the other ids.
theorem of_stores (h : db.Stores u vector [] db') (hu : yields u.id u.path) :
    db.Gathers yields selected db' := by
  have hne : ∀ i, (∀ p, ¬yields i p) → i ≠ u.id := fun i hi he => hi u.path (he ▸ hu)
  have hf : ∀ i, (∀ p, ¬yields i p) → db'.units.find? i = db.units.find? i := by
    intro i hi
    obtain hs | hs := h.units <;> rw [hs]
    exact Table.find?_insert_of_ne (hne i hi)
  have hv : ∀ i, (∀ p, ¬yields i p) → db'.vec? i = db.vec? i := by
    intro i hi
    obtain hv | ⟨_, v, _, hv⟩ := h.vec <;> rw [hv]
    exact if_neg (hne i hi)
  refine ⟨fun row hrow => ?_, fun row hrow hi _ => ?_, fun i hi hb => ?_, fun i hi hn => ?_⟩
  · obtain hs | hs := h.units <;> rw [hs] at hrow
    · exact .inr hrow
    · obtain rfl | ⟨hm, _⟩ := Table.mem_insert.mp hrow
      · exact .inl hu
      · exact .inr hm
  · exact Table.mem_of_find? ((hf _ hi).trans (Table.find?_of_mem hrow))
  · rwa [hf i hi, hv i hi]
  · exact ⟨(hf i hi).trans hn, hv i hi⟩

-- Deleting stale units only concerns the rows of a selected path, and their vectors.
theorem of_deletes (h : db.Deletes (isStale identity ids) db') (hs : selected identity) :
    db.Gathers yields selected db' where
  rows row hrow        := by
    obtain hu | ⟨hu, _⟩ := h.units <;> rw [hu] at hrow
    · exact .inr hrow
    · exact .inr (Table.mem_delete.mp hrow).left
  spared row hrow _ hp := by
    have hne : row.path ≠ identity := fun he => hp (he ▸ hs)
    obtain hu | ⟨hu, _⟩ := h.units <;> rw [hu]
    · exact hrow
    · exact Table.mem_delete.mpr ⟨hrow, by simp [isStale, hne]⟩
  backed i _ hb hv     := by
    have hi : (db.vec? i).isSome := by
      obtain he | ⟨_, he⟩ := h.vec i <;> rw [he] at hv
      · exact hv
      · cases hv
    obtain hu | ⟨hu, hv'⟩ := h.units <;> rw [hu]
    · exact hb hi
    · rw [hv'] at hv
      split at hv
      case isTrue => cases hv
      case isFalse hw =>
        obtain ⟨row, hrow⟩ := Option.isSome_iff_exists.mp (hb hi)
        rw [unitIdWhere, hrow, Option.any_some, Bool.not_eq_true] at hw
        simp [Table.find?_delete, hrow, Option.filter, hw]
  orphans i _ hn       := by
    have hw : db.unitIdWhere (isStale identity ids) i = false := by simp [unitIdWhere, hn]
    refine ⟨?_, (h.vec i).resolve_right fun hc => by simp [hw] at hc⟩
    obtain hu | ⟨hu, _⟩ := h.units <;> rw [hu]
    · exact hn
    · simp [Table.find?_delete, hn]

end Gathers

-- What the syncs of the files with these units and stored paths may do to the tables.
def gathering (yields : String → String → Prop) (selected : String → Prop) : Rely (Db F) where
  rel     := Gathers yields selected
  refl _  := .of_eq (fun _ => .rfl) fun _ _ => rfl
  trans   := .trans

-- Yielded rows are not lost.
def holding (yields : String → String → Prop) : Rely (Db F) where
  rel db db'   := ∀ i p, yields i p → db.HasUnit i p → db'.HasUnit i p
  refl _ _ _ _ := id
  trans h h' i p hy hu := h' i p hy (h i p hy hu)

theorem holding_of_stores (h : db.Stores u vector [] db')
    (hu : ∀ p, yields u.id p → p = u.path) : holding yields db db' := by
  rintro i p hy ⟨row, hrow, rfl, rfl⟩
  obtain hs | hs := h.units
  case inl => exact ⟨row, hs ▸ hrow, rfl, rfl⟩
  by_cases he : row.id = u.id
  case pos => exact ⟨u, hs ▸ Table.mem_insert.mpr (.inl rfl), he.symm, (hu _ (he ▸ hy)).symm⟩
  case neg => exact ⟨row, hs ▸ Table.mem_insert.mpr (.inr ⟨hrow, he⟩), rfl, rfl⟩

theorem holding_of_deletes (h : db.Deletes (isStale identity ids) db')
    (hi : ∀ i, yields i identity → i ∈ ids) : holding yields db db' := by
  rintro i p hy ⟨row, hrow, rfl, rfl⟩
  refine ⟨row, ?_, rfl, rfl⟩
  obtain hu | ⟨hu, _⟩ := h.units <;> rw [hu]
  · exact hrow
  · refine Table.mem_delete.mpr ⟨hrow, ?_⟩
    by_cases hp : row.path = identity
    case pos => simp [isStale, hi _ (hp ▸ hy)]
    case neg => simp [isStale, hp]

end Db

namespace IndexStack

open Conn Coroutine World

variable {F : Floats} {stack : IndexStack F} {force : Bool} {paths : List String} {path : String}
variable {stored : Option String} {units : List KnowledgeUnit} {s s' : World F}

-- The parser yields a unit with this id and path for the file.
def Yields (stack : IndexStack F) (path i p : String) : Prop :=
  ∃ stored units, stack.parsesAt path stored units ∧ ∃ u ∈ units, u.id = i ∧ u.path = p

def YieldsAny (stack : IndexStack F) (paths : List String) (i p : String) : Prop :=
  ∃ path ∈ paths, stack.Yields path i p

def StoredAt (stack : IndexStack F) (path p : String) : Prop :=
  ∃ stored, stack.storedPath path = .ok stored ∧ stored.getD path = p

def Selected (stack : IndexStack F) (paths : List String) (p : String) : Prop :=
  ∃ path ∈ paths, stack.StoredAt path p

-- Files with the same stored path yield the same units.
def Uniform (stack : IndexStack F) (paths : List String) : Prop :=
  ∀ q ∈ paths, ∀ q' ∈ paths, ∀ p, stack.StoredAt q p → stack.StoredAt q' p →
    ∀ i, stack.Yields q i p → stack.Yields q' i p

-- Every id is yielded at one path, every row has a yielded id or the path of a selected file, and
-- every vector has a yielded id or the id of a row.
structure Covers (stack : IndexStack F) (paths : List String) (db : Db F) : Prop where
  path    : ∀ i p p', stack.YieldsAny paths i p → stack.YieldsAny paths i p' → p = p'
  rows    : ∀ u ∈ db.units, (∃ p, stack.YieldsAny paths u.id p) ∨ stack.Selected paths u.path
  vectors : ∀ i, (db.vec? i).isSome →
    (∃ p, stack.YieldsAny paths i p) ∨ (db.units.find? i).isSome

-- The index holds the units of the selected files and nothing else.
structure Collected (stack : IndexStack F) (paths : List String) (w : World F) : Prop where
  units   : ∀ i p, w.db.HasUnit i p ↔ stack.YieldsAny paths i p
  vectors : ∀ i, (w.db.vec? i).isSome → ∃ p, stack.YieldsAny paths i p
  hits    : ∀ closer query limit us,
    (searchUnits stack.embedder closer query limit w).outcome = .ok us →
      ∀ u ∈ us, stack.YieldsAny paths u.id u.path

-- A file yields its units at its stored path.
theorem yields_iff (h : stack.parsesAt path stored units) {i p : String} :
    stack.Yields path i p ↔ p = stored.getD path ∧ i ∈ units.map (·.id) := by
  have hpar := MultiParser.parsed_of_distillFile h.right
  constructor
  case mp =>
    rintro ⟨stored', units', h', u, hu, rfl, rfl⟩
    obtain ⟨rfl, rfl⟩ := parsesAt_unique h h'
    exact ⟨(hpar u hu).path, List.mem_map_of_mem hu⟩
  case mpr =>
    rintro ⟨rfl, hi⟩
    obtain ⟨u, hu, rfl⟩ := List.mem_map.mp hi
    exact ⟨stored, units, h, u, hu, rfl, (hpar u hu).path⟩

theorem yieldsAny_of_mem (hm : path ∈ paths) (h : stack.parsesAt path stored units)
    {u : KnowledgeUnit} (hu : u ∈ units) : stack.YieldsAny paths u.id u.path :=
  ⟨path, hm, stored, units, h, u, hu, rfl, rfl⟩

theorem within_gathering (hm : path ∈ paths) (h : stack.parsesAt path stored units) :
    Within ((Db.gathering (stack.YieldsAny paths) (stack.Selected paths)).comap World.db) stack units
      (stored.getD path) :=
  within_comap (MultiParser.parsed_of_distillFile h.right) (fun _ _ => .of_binds)
    (fun u hu _ _ _ _ hs => .of_stores hs (yieldsAny_of_mem (u := u) hm h hu))
    fun _ _ hd => .of_deletes hd ⟨path, hm, stored, h.left, rfl⟩

theorem within_holding (hu : stack.Uniform paths)
    (hp : ∀ i p p', stack.YieldsAny paths i p → stack.YieldsAny paths i p' → p = p')
    (hm : path ∈ paths) (h : stack.parsesAt path stored units) :
    Within ((Db.holding (stack.YieldsAny paths)).comap World.db) stack units (stored.getD path) := by
  refine within_comap (MultiParser.parsed_of_distillFile h.right) (fun d d' hb => ?_)
    (fun u hu o v d d' hs => Db.holding_of_stores hs fun p hy => ?_)
    fun d d' hd => Db.holding_of_deletes hd ?_
  · exact fun i p _ hr => by rwa [Db.HasUnit, hb.units]
  · exact hp _ _ _ hy (yieldsAny_of_mem (u := u) hm h hu)
  · rintro i ⟨q, hq, hy⟩
    have hq' : stack.StoredAt q (stored.getD path) := by
      obtain ⟨stored', units', h', _⟩ := id hy
      exact ⟨stored', h'.left, ((yields_iff h').mp hy).left.symm⟩
    exact ((yields_iff h).mp (hu q hq path hm _ hq' ⟨stored, h.left, rfl⟩ i hy)).right

-- Whatever fails, the syncs of the files only do what they may do.
theorem gathers_outcome {n : Nat} {failures : List (String × Exn)}
    (h : Pool.Outcome (stack.syncPath force) paths n s failures s') :
    s.db.Gathers (stack.YieldsAny paths) (stack.Selected paths) s'.db := by
  let S := (Db.gathering (F := F) (stack.YieldsAny paths) (stack.Selected paths)).comap World.db
  refine h.rel (S := S) (R := fun _ => S) (G := fun _ => S) (Q := fun _ _ _ => True)
    (List.pairwise_of_forall fun _ _ => ⟨fun _ _ => id, fun _ _ => id⟩) (fun path hm => ?_)
    fun _ _ _ _ => id
  refine wp_syncPath S.refl (fun _ _ _ => trivial) fun stored units hp => ?_
  exact wp_mono ((within_gathering hm hp).wp_syncFile force hp.right rfl) fun _ _ _ => trivial

-- The rows are the same, and so are the vectors that do not belong to one.
private def refilling : Rely (World F) where
  rel s s'   := (∀ u, u ∈ s'.db.units ↔ u ∈ s.db.units) ∧
    ∀ i, s.db.units.find? i = none → s'.db.vec? i = s.db.vec? i
  refl _     := ⟨fun _ => .rfl, fun _ _ => rfl⟩
  trans h h' := ⟨fun u => (h'.left u).trans (h.left u), fun i hi =>
    (h'.right i (Table.find?_eq_of_mem_iff h.left i ▸ hi)).trans (h.right i hi)⟩

private theorem refilling_of_binds {m : String} (h : s.Binds m s') : refilling s s' :=
  ⟨fun u => by rw [h.db.units], fun _ _ => h.db.vec?⟩

private theorem refilling_upsertUnit {embedder : Embedder F} {u : KnowledgeUnit} {vec : List F}
    (hu : u.toUnitRow ∈ s.db.units) :
    refilling s (upsertUnit embedder u (some vec) s).state := by
  obtain ⟨w₁, hx⟩ := (upsertUnit_post : (upsertUnit embedder u (some vec)).post _ s)
  refine refilling.trans (refilling_of_binds hx.binds) ⟨fun row => ?_, fun i hi => ?_⟩
  · obtain hs | hs := hx.stores.units <;> rw [hs]
    rw [Table.mem_insert]
    constructor
    case mp =>
      rintro (rfl | ⟨hm, _⟩)
      · rwa [hx.binds.db.units]
      · exact hm
    case mpr =>
      intro hm
      by_cases he : key row = key u.toUnitRow
      case pos => exact .inl (Table.eq_of_key_eq hm (hx.binds.db.units ▸ hu) he)
      case neg => exact .inr ⟨hm, he⟩
  · obtain hv | ⟨_, v, _, hv⟩ := hx.stores.vec
    case inl => exact hv i
    case inr =>
      rw [hv, if_neg]
      rintro rfl
      rw [hx.binds.db.units] at hi
      exact Table.find?_eq_none_iff.mp hi _ hu rfl

-- Re-embedding keeps all rows and only adds vectors of rows.
theorem gathers_reembedIfDirty {indexAll : Bool} (h : stack.reembedIfDirty indexAll s = .ok () s') :
    s.db.Gathers (stack.YieldsAny paths) (stack.Selected paths) s'.db := by
  obtain ⟨_, rfl⟩ | ⟨_, _, h⟩ := reembedIfDirty_cases h
  case inl => exact .of_eq (fun _ => .rfl) fun _ _ => rfl
  suffices hs : refilling s s' from .of_eq hs.left hs.right
  have hlist : listUnits.post (fun r t => s.Reads t ∧ ∀ a, r = .ok a →
      a = s.db.units.rows.map fun u => ({ toUnitRow := u, relations := [] } : KnowledgeUnit)) s :=
    select_post
  unfold reembedAllUnits at h
  rw [run_bind, run_call] at h
  obtain ⟨listed, s₁, h₁, h⟩ | ⟨_, _, _, h⟩ := EStateM.bind_cases h
  case inr => cases h
  rw [EStateM.post, h₁] at hlist
  obtain ⟨⟨f, rfl⟩, hl⟩ := hlist
  have hl := hl listed rfl
  rw [run_bind] at h
  obtain ⟨_, s₂, h₂, h⟩ | ⟨_, _, _, h⟩ := EStateM.bind_cases h
  case inr => cases h
  have hrow : ∀ u ∈ listed, u.toUnitRow ∈ s.db.units := by
    rintro u hu
    obtain ⟨row, hrow, rfl⟩ := List.mem_map.mp (hl ▸ hu)
    exact hrow
  have hembed : ∀ texts t, refilling t (aembed stack.embedder texts t).state := by
    intro texts t
    obtain ⟨f', ht⟩ := (aembed_post : (aembed stack.embedder texts).post _ t).left
    rw [ht]
    exact refilling.refl t
  have hwp : (embedAndUpsert stack.embedder listed).wp .still _ _ { s with faults := f } :=
    wp_embedAndUpsert (G := refilling) (S := refilling)
      (J := fun u t => u.toUnitRow ∈ t.db.units)
      (fun t _ h => by cases h; exact refilling.refl t) (fun _ _ => id)
      (fun u _ _ hj h => (h.left u.toUnitRow).mpr hj) (fun _ _ _ hj _ => refilling_upsertUnit hj)
      (fun t => refilling_of_binds ensureEmbeddingsBound_post.left) hembed hrow
  have hs₂ := (wp_run hwp).left
  rw [h₂] at hs₂
  rw [run_call] at h
  have hm : (markEmbeddingModelSynced stack.embedder).post (fun _ t => refilling s₂ t) s₂ := by
    refine EStateM.post_bind metaSet_post ?_ ?_
    · rintro _ _ (⟨⟨f, rfl⟩, _⟩ | ⟨f, _, rfl, _⟩) <;> exact refilling.refl s₂
    · rintro _ _ (⟨⟨f, rfl⟩, _⟩ | ⟨f, _, rfl, _⟩) <;> exact refilling.refl s₂
  rw [EStateM.post, h] at hm
  exact refilling.trans hs₂ hm

-- After a sync without failures every yielded row is there, and the rows at the path of a file are
-- yielded.
theorem holds_of_succeeded {n : Nat} (hu : stack.Uniform paths)
    (hp : ∀ i p p', stack.YieldsAny paths i p → stack.YieldsAny paths i p' → p = p')
    (hn : paths ≠ [] → 0 < n) (h : Pool.Outcome (stack.syncPath force) paths n s [] s')
    (hm : path ∈ paths) (hst : stack.storedPath path = .ok stored) :
    (∀ i p, stack.Yields path i p → s'.db.HasUnit i p) ∧
      ∀ u ∈ s'.db.units, u.path = stored.getD path → stack.YieldsAny paths u.id u.path := by
  let S := ((Db.gathering (F := F) (stack.YieldsAny paths) (stack.Selected paths)).inter
    (Db.holding (stack.YieldsAny paths))).comap World.db
  let Q := fun (path : String) (r : Except Exn PUnit) (s' : World F) => r = .ok ⟨⟩ →
    ∀ stored, stack.storedPath path = .ok stored → (∀ i p, stack.Yields path i p → s'.db.HasUnit i p) ∧
      ∀ u ∈ s'.db.units, u.path = stored.getD path → stack.YieldsAny paths u.id u.path
  refine h.post (R := fun _ => S) (G := fun _ => S) (Q := Q) hn
    (List.pairwise_of_forall fun _ _ => ⟨fun _ _ => id, fun _ _ => id⟩) (fun path hm => ?_) hm rfl
    stored hst
  refine wp_syncPath S.refl (fun _ _ _ => nofun) fun stored units hpar => ?_
  have hg := within_gathering hm hpar
  have hh := within_holding hu hp hm hpar
  have hw : Within S stack units (stored.getD path) :=
    { get     := fun i s => ⟨hg.get i s, hh.get i s⟩
      distill := fun u e c s => ⟨hg.distill u e c s, hh.distill u e c s⟩
      has     := fun i s => ⟨hg.has i s, hh.has i s⟩
      ensure  := fun s => ⟨hg.ensure s, hh.ensure s⟩
      embed   := fun t s => ⟨hg.embed t s, hh.embed t s⟩
      upsert  := fun u hu o v s => ⟨hg.upsert u hu o v s, hh.upsert u hu o v s⟩
      delete  := fun s => ⟨hg.delete s, hh.delete s⟩ }
  refine wp_mono (hw.wp_syncFile force hpar.right rfl) fun r s' ⟨_, hr⟩ ho stored' hst' => ?_
  obtain rfl : stored = stored' := Except.ok.inj (hpar.left.symm.trans hst')
  obtain ⟨hstored, t, hdel, ht⟩ := hr ho
  constructor
  case left =>
    rintro i p ⟨_, _, hpar', u, hu, rfl, rfl⟩
    obtain ⟨rfl, rfl⟩ := parsesAt_unique hpar hpar'
    obtain ⟨o, v, t', ho', ht'⟩ := hstored u hu
    obtain ⟨_, hx⟩ := (upsertUnit_post :
      (upsertUnit stack.embedder (withSummary u o) v).post _ t')
    refine ht'.right _ _ (yieldsAny_of_mem hm hpar hu) ⟨(withSummary u o).toUnitRow, ?_, rfl, rfl⟩
    rw [(hx.ok ho').left]
    exact Table.mem_insert.mpr (.inl rfl)
  case right =>
    intro row hrow hpath
    refine (ht.left.rows row hrow).elim id fun hrow => ?_
    obtain ⟨_, _, _, _, _, _, hd⟩ := (deleteStaleUnits_post :
      (deleteStaleUnits stack.embedder (stored.getD path) (units.map (·.id))).post _ t)
    rw [hd hdel, Table.mem_delete] at hrow
    refine ⟨path, hm, (yields_iff hpar).mpr ⟨hpath, ?_⟩⟩
    simpa [isStale, hpath] using hrow.right

section Project

variable {n : Nat} {failures : List (String × Exn)}

theorem collected_of_covers (h₀ : s.db.Gathers (stack.YieldsAny paths) (stack.Selected paths) s'.db)
    (hc : stack.Covers paths s.db)
    (hy : ∀ i p, stack.YieldsAny paths i p → s'.db.HasUnit i p)
    (hsel : ∀ u ∈ s'.db.units, stack.Selected paths u.path → stack.YieldsAny paths u.id u.path) :
    stack.Collected paths s' := by
  have hrows : ∀ u ∈ s'.db.units, stack.YieldsAny paths u.id u.path := by
    intro u hu
    refine (h₀.rows u hu).elim id fun hu₀ => ?_
    obtain ⟨p, hp⟩ | hs := hc.rows u hu₀
    case inl =>
      obtain ⟨u', hu', hi, rfl⟩ := hy _ _ hp
      rwa [Table.eq_of_key_eq hu' hu hi] at hp
    case inr => exact hsel u hu hs
  refine ⟨fun i p => ⟨?_, hy i p⟩, fun i hv => ?_, fun closer query limit us ho u hu => ?_⟩
  · rintro ⟨u, hu, rfl, rfl⟩
    exact hrows u hu
  · by_contra hn
    rw [not_exists] at hn
    have hf := h₀.backed i hn (fun h => (hc.vectors i h).resolve_left fun ⟨p, hp⟩ => hn p hp) hv
    obtain ⟨u, hu, hi⟩ := Table.find?_isSome_iff.mp hf
    exact hn u.path (hi ▸ hrows u hu)
  · have hx := (searchUnits_post : (searchUnits stack.embedder closer query limit).post _ s')
    exact hrows _ (hx us ho u hu)

theorem covers_of_collected (h₀ : s.db.Gathers (stack.YieldsAny paths) (stack.Selected paths) s'.db)
    (hc : stack.Collected paths s') : stack.Covers paths s.db := by
  refine ⟨fun i p p' hp hp' => ?_, fun u hu => ?_, fun i hv => ?_⟩
  · obtain ⟨u, hu, hi, rfl⟩ := (hc.units i p).mpr hp
    obtain ⟨u', hu', hi', rfl⟩ := (hc.units i p').mpr hp'
    rw [Table.eq_of_key_eq hu hu' (hi.trans hi'.symm)]
  · by_contra hn
    rw [not_or, not_exists] at hn
    exact hn.left _ ((hc.units _ _).mp ⟨u, h₀.spared u hu hn.left hn.right, rfl, rfl⟩)
  · by_contra hn
    rw [not_or, not_exists, Option.isSome_iff_ne_none, not_not] at hn
    have ⟨p, hp⟩ := hc.vectors i ((h₀.orphans i hn.left hn.right).right ▸ hv)
    exact hn.left p hp

variable {project : Project} {options : SyncOptions} {result : SyncResult}

-- Dependency discovery does not touch the rows of the index.
private def discovering : Rely (World F) where
  rel s s'   := s'.db = { s.db with dependencies := s'.db.dependencies }
  refl _     := rfl
  trans h h' := by rw [h', h]

private theorem discovering_syncDependencies : (syncDependencies project : Conn F Unit).Within discovering := by
  refine .tryCatch (.forM (fun l s => ?_) _) fun _ => .pure
  have h : (setDependencyPath l.1 l.2).post (fun _ s' => discovering s s') s := by
    refine EStateM.post_mono execute_post ?_
    rintro _ _ (⟨⟨f, rfl⟩, _⟩ | ⟨_, f, hf, _, rfl, _⟩)
    · rfl
    · cases hf
      rfl
  exact h

-- A sync of the whole project of a migrated index starts with the workers.
theorem prelude_of_migrated {selection : Option (List String)} (hp : options.path = none)
    (hm : s.db.meta? PATHS_MIGRATED_KEY = some "1")
    (h : stack.prelude project options s = .ok selection s') :
    selection = some (stack.indexableUnder project options options.root) ∧
      s'.db = { s.db with dependencies := s'.db.dependencies } := by
  unfold prelude at h
  simp only [hp] at h
  obtain ⟨_, s₁, h₁, h⟩ | ⟨_, _, _, h⟩ := EStateM.bind_cases h
  case inr => cases h
  cases h₁
  obtain ⟨_, s₁, h₁, h⟩ | ⟨_, _, _, h⟩ := EStateM.bind_cases h
  case inr => cases h
  have hd : discovering s s₁ := by
    have hd : discovering s ((syncDependencies project) s).state := discovering_syncDependencies s
    rwa [h₁] at hd
  obtain ⟨_, s₂, h₂, h⟩ | ⟨_, _, _, h⟩ := EStateM.bind_cases h
  case inr => cases h
  cases h
  refine ⟨by rw [selectPaths], ?_⟩
  have hmig : (stack.migrateIfNeeded project options).post (fun _ s' => discovering s₁ s') s₁ := by
    refine EStateM.post_bind (pathsMigrationDone_post (w := s₁)) ?_ ?_
    case refine_2 =>
      rintro _ _ ⟨⟨f, rfl⟩, _⟩
      exact discovering.refl s₁
    rintro b _ ⟨⟨f, rfl⟩, hb⟩
    have hm₁ : s₁.db.meta? PATHS_MIGRATED_KEY = some "1" := by
      rw [hd]
      exact hm
    obtain rfl : b = true := by simpa [hm₁] using hb b rfl
    exact EStateM.post_pure (discovering.refl s₁)
  rw [EStateM.post, h₂] at hmig
  exact discovering.trans hd hmig

theorem collected_syncProject {indexAll : Bool} (hn : 0 < n)
    (h : stack.SyncProject paths force indexAll n s (.ok []) s') :
    (stack.Collected paths s' → stack.Covers paths s.db) ∧
      (stack.Uniform paths → stack.Covers paths s.db → stack.Collected paths s') := by
  generalize hr : (Except.ok [] : Except Exn (List (String × String))) = r at h
  cases h
  case raised => cases hr
  case returned s₁ fs hre hout =>
    obtain rfl : fs = [] := List.map_eq_nil_iff.mp (Except.ok.inj hr).symm
    have h₀ := (gathers_reembedIfDirty hre).trans (gathers_outcome hout)
    refine ⟨covers_of_collected h₀, fun hu hc => collected_of_covers h₀ hc ?_ ?_⟩
    all_goals
      have hw : paths ≠ [] → 0 < workerCount paths n := by
        intro hne
        have := List.length_pos_iff.mpr hne
        unfold workerCount
        omega
    · rintro i p ⟨path, hm, hy⟩
      obtain ⟨stored, units, hpar, _⟩ := id hy
      exact (holds_of_succeeded hu hc.path hw hout hm hpar.left).left i p hy
    · rintro u hrow ⟨path, hm, stored, hst, hp⟩
      exact (holds_of_succeeded hu hc.path hw hout hm hst).right u hrow hp.symm

-- After a sync of all files the index holds exactly the units of the selected files, if and only if
-- every row had the path or the id of a unit of a selected file before.
theorem collected_iff (hp : options.path = none) (ha : options.indexAll = true)
    (hn : 0 < options.maxConcurrency) (hm : s.db.meta? PATHS_MIGRATED_KEY = some "1")
    (h : stack.RunSync project options s (.ok result) s') (he : result.errors = []) :
    let rooted := { stack with root := some options.root }
    let paths  := stack.indexableUnder project options options.root
    (rooted.Collected paths s' → rooted.Covers paths s.db) ∧
      (rooted.Uniform paths → rooted.Covers paths s.db → rooted.Collected paths s') := by
  intro rooted paths
  cases h
  case nothing hi => simp [ha] at hi
  case skipped hsel => cases (prelude_of_migrated hp hm hsel).left
  case synced w₁ paths' failures _ hsel hsync =>
    obtain ⟨hpaths, hdb⟩ := prelude_of_migrated hp hm hsel
    obtain rfl : paths' = paths := Option.some.inj hpaths
    obtain rfl : failures = [] := he
    have hc : rooted.Covers paths w₁.db ↔ rooted.Covers paths s.db := by
      rw [hdb]
      exact ⟨fun h => ⟨h.path, h.rows, h.vectors⟩, fun h => ⟨h.path, h.rows, h.vectors⟩⟩
    rw [←hc]
    exact collected_syncProject hn hsync

end Project

section Sample

open Session

private def tree (files : List (String × String)) : IndexStack naturals :=
  Sample.stack "m" files "" none

private def everything : SyncOptions where
  root           := "/r"
  path           := none
  indexAll       := true
  force          := false
  maxConcurrency := 1

private def rooted (files : List (String × String)) : IndexStack naturals :=
  { tree files with root := some "/r" }

private def before : World naturals :=
  .opened (Sample.embedder "m") .empty false none noFaults

private def started (files : List (String × String)) (s : World naturals) : World naturals :=
  ((tree files).prelude Sample.project everything s).state

-- The state after all files were synced.
private def synced (files : List (String × String)) (s : World naturals) : World naturals :=
  (Pool.sequential ((rooted files).syncPath false) (files.map Prod.fst) (started files s)).2

private theorem runSync_synced {files : List (String × String)} {s : World naturals}
    (hlen : min files.length 1 = 1)
    (hsel : ((tree files).prelude Sample.project everything s).outcome =
      .ok (some (files.map Prod.fst)))
    (hd : (started files s).dirty = false)
    (hf : (Pool.sequential ((rooted files).syncPath false) (files.map Prod.fst) (started files s)).1 = []) :
    (tree files).RunSync Sample.project everything s
      (.ok (resultFromFailures (files.map Prod.fst).length [])) (synced files s) := by
  have hout : Pool.Outcome ((rooted files).syncPath false) (files.map Prod.fst)
      (workerCount (files.map Prod.fst) 1) (started files s) [] (synced files s) := by
    have h : Pool.Outcome ((rooted files).syncPath false) (files.map Prod.fst) 1 (started files s) _ _ :=
      Pool.sequential_outcome
    rw [hf] at h
    rwa [show workerCount (files.map Prod.fst) 1 = 1 by simpa [workerCount] using hlen]
  exact .synced (.inr rfl) (EStateM.eq_ok_of_outcome hsel) (.returned (reembedIfDirty_of_clean hd) hout)

private def one : List (String × String) :=
  [("/r/a.py", "f=1")]

private def two : List (String × String) :=
  [("/r/a.py", "f=1"), ("/r/b.py", "g=2")]

private theorem runSync_two : (tree two).RunSync Sample.project everything before
    (.ok (resultFromFailures 2 [])) (synced two before) :=
  runSync_synced rfl (by decide +kernel) (by decide +kernel) (by decide +kernel)

private theorem runSync_deleted : (tree one).RunSync Sample.project everything (synced two before)
    (.ok (resultFromFailures 1 [])) (synced one (synced two before)) :=
  runSync_synced rfl (by decide +kernel) (by decide +kernel) (by decide +kernel)

private def renamed : List (String × String) :=
  [("/r/a.py", "g=1")]

private theorem runSync_renamed : (tree renamed).RunSync Sample.project everything (synced one before)
    (.ok (resultFromFailures 1 [])) (synced renamed (synced one before)) :=
  runSync_synced rfl (by decide +kernel) (by decide +kernel) (by decide +kernel)

private theorem covers_renamed : (rooted renamed).Covers ["/r/a.py"] (synced one before).db := by
  refine ⟨?_, fun u hu => .inr ?_, fun i hv => .inr ?_⟩
  case refine_1 =>
    rintro i p p' ⟨q, hq, _, _, hp, u, hu, _, rfl⟩ ⟨q', hq', _, _, hp', u', hu', _, rfl⟩
    obtain rfl : q = q' := (List.mem_singleton.mp hq).trans (List.mem_singleton.mp hq').symm
    obtain ⟨rfl, rfl⟩ := parsesAt_unique hp hp'
    have hpar := MultiParser.parsed_of_distillFile hp.right
    exact (hpar u hu).path.trans (hpar u' hu').path.symm
  case refine_2 =>
    have h : ∀ p ∈ (synced one before).db.units.rows.map (·.path), p = "a.py" := by decide +kernel
    rw [h u.path (List.mem_map_of_mem hu)]
    exact ⟨"/r/a.py", .head _, some "a.py", by decide +kernel, rfl⟩
  case refine_3 =>
    have h : ∀ i ∈ ((synced one before).db.embeddings.map (·.rows.rows.map VecRow.id)).getD [],
        ((synced one before).db.units.find? i).isSome := by decide +kernel
    obtain ⟨v, hv⟩ := Option.isSome_iff_exists.mp hv
    obtain ⟨e, he, r, hr, rfl, _⟩ := Db.vec?_eq_some_iff.mp hv
    exact h r.id (by rw [he]; exact List.mem_map_of_mem hr)

-- The row of a renamed unit is gone after the next sync.
theorem collected_iff_sample : (rooted renamed).Collected
    ((tree renamed).indexableUnder Sample.project everything "/r")
    (synced renamed (synced one before)) := by
  have hpaths : (tree renamed).indexableUnder Sample.project everything "/r" = ["/r/a.py"] := by
    decide +kernel
  refine (collected_iff (s := synced one before) rfl rfl Nat.one_pos (by decide +kernel) runSync_renamed
    rfl).right ?_ ?_
  · rw [show everything.root = "/r" from rfl, hpaths]
    rintro q hq q' hq' p - - i hy
    rwa [(List.mem_singleton.mp hq').trans (List.mem_singleton.mp hq).symm]
  · rw [show everything.root = "/r" from rfl, hpaths]
    exact covers_renamed

private theorem reachable_two :
    Reachable (fun _ _ _ => True) ⟨Sample.embedder "m", synced two before⟩ := by
  have hs : Reachable (fun _ _ _ => True) ⟨Sample.embedder "m", before⟩ :=
    .start (s := ⟨Sample.embedder "m", .connect .empty .readWrite none noFaults noFaults⟩)
      (a := .reopen (Sample.embedder "m") .readWrite false none noFaults noFaults)
      rfl trivial trivial (.reopen openDbConnection_eq)
  exact .step hs trivial (.runSync rfl runSync_two)

-- The row of a file that is not there anymore refutes the garbage collection.
private theorem not_collected_of_row {w w' : World naturals}
    (hw : Reachable (fun _ _ _ => True) ⟨Sample.embedder "m", w⟩)
    (hm : w.db.meta? PATHS_MIGRATED_KEY = some "1")
    (hs : (tree one).RunSync Sample.project everything w (.ok (resultFromFailures 1 [])) w')
    (hrow : (w'.db.units.find? "b.py:g").map (·.path) = some "b.py") :
    ¬∀ s : Session naturals, Reachable (fun _ _ _ => True) s →
      ∀ (stack : IndexStack naturals) (project : Project) (options : SyncOptions) (result : SyncResult)
        (s' : World naturals), stack.embedder = s.embedder → options.path = none →
        options.indexAll = true → 0 < options.maxConcurrency →
        s.world.db.meta? PATHS_MIGRATED_KEY = some "1" →
        stack.RunSync project options s.world (.ok result) s' → result.errors = [] →
        ({ stack with root := some options.root } : IndexStack naturals).Collected
          (stack.indexableUnder project options options.root) s' := by
  intro h
  have hc : (rooted one).Collected ((tree one).indexableUnder Sample.project everything "/r") w' :=
    h _ hw _ _ _ _ _ rfl rfl rfl Nat.one_pos hm hs rfl
  obtain ⟨u, hu, hp⟩ := Option.map_eq_some_iff.mp hrow
  obtain ⟨q, hq, hy⟩ := (hc.units "b.py:g" "b.py").mp
    ⟨u, Table.mem_of_find? hu, Table.key_of_find? hu, hp⟩
  have hpaths : (tree one).indexableUnder Sample.project everything "/r" = ["/r/a.py"] := by
    decide +kernel
  rw [hpaths, List.mem_singleton] at hq
  obtain ⟨stored, units, hpar, _⟩ := id hy
  have hst : (rooted one).storedPath q = .ok (some "a.py") := by
    rw [hq]
    decide +kernel
  have hstored : some "a.py" = stored := Except.ok.inj (hst.symm.trans hpar.left)
  have hpath := ((yields_iff hpar).mp hy).left
  rw [←hstored] at hpath
  exact absurd (show "b.py" = "a.py" from hpath) (by decide)

-- The rows of a deleted file stay.
theorem not_collected : ¬∀ s : Session naturals, Reachable (fun _ _ _ => True) s →
    ∀ (stack : IndexStack naturals) (project : Project) (options : SyncOptions) (result : SyncResult)
      (s' : World naturals), stack.embedder = s.embedder → options.path = none → options.indexAll = true →
      0 < options.maxConcurrency → s.world.db.meta? PATHS_MIGRATED_KEY = some "1" →
      stack.RunSync project options s.world (.ok result) s' → result.errors = [] →
      ({ stack with root := some options.root } : IndexStack naturals).Collected
        (stack.indexableUnder project options options.root) s' :=
  not_collected_of_row reachable_two (by decide +kernel) runSync_deleted (by decide +kernel)

end Sample

end IndexStack
