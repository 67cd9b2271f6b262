import CodeRag.Storage.Theorems.DuckDB

-- No row survives the unit that it belongs to.

open EStateM

namespace Db

variable {F : Floats} {db₀ db db' : Db F} {u : UnitRow} {vector : Option (List F)} {i : String}
variable {rels : List Relation} {p : UnitRow → Bool} {m : String}

-- Every vector is that of a stored unit.
def Owned (db : Db F) : Prop :=
  ∀ i, (db.vec? i).isSome → (db.units.find? i).isSome

-- No relation touches a unit that has been deleted since `db`.
def NoneLeft (db db' : Db F) : Prop :=
  ∀ i, (db.units.find? i).isSome → db'.units.find? i = none →
    ∀ r ∈ db'.relations, r.fromId ≠ i ∧ r.toId ≠ i

theorem NoneLeft.of_units (h : db'.units = db.units) : db.NoneLeft db' := by
  intro i hs hn
  rw [h] at hn
  rw [hn] at hs
  cases hs

theorem Owned.of_eq (h : db.Owned) (hu : db'.units = db.units) (hv : ∀ i, db'.vec? i = db.vec? i) :
    db'.Owned := by
  intro i hi
  rw [hv] at hi
  rw [hu]
  exact h i hi

theorem Owned.binds (h : db.Owned) (hb : Binds m db db') : db'.Owned :=
  h.of_eq hb.units fun _ => hb.vec?

theorem Owned.stores (h : db.Owned) (hs : db.Stores u vector rels db') : db'.Owned := by
  have hkept : ∀ i, (db.units.find? i).isSome → (db'.units.find? i).isSome := by
    intro i hi
    obtain hu | hu := hs.units
    · rwa [hu]
    · rw [hu, Table.find?_insert]
      split
      · rfl
      · exact hi
  intro i hi
  obtain hv | ⟨hu, v, _, hv⟩ := hs.vec
  · exact hkept i (h i (hv i ▸ hi))
  · by_cases he : i = u.id
    case pos => rw [hu, he, Table.find?_insert, key_unitRow, if_pos rfl]; rfl
    case neg => exact hkept i (h i (by rwa [hv i, if_neg he] at hi))

theorem find?_deleteUnits (h : (db.units.find? i).isSome) :
    ((db.units.delete p).find? i).isSome ↔ db.unitIdWhere p i = false := by
  obtain ⟨u, hu⟩ := Option.isSome_iff_exists.mp h
  rw [Table.find?_delete, unitIdWhere, hu]
  cases hp : p u <;> simp [Option.filter, hp]

theorem Owned.deletes (h : db.Owned) (hd : db.Deletes p db') : db'.Owned := by
  intro i hi
  obtain hu | ⟨hu, hv⟩ := hd.units
  · rw [hu]
    obtain hv | ⟨_, hv⟩ := hd.vec i
    · exact h i (hv ▸ hi)
    · rw [hv] at hi; cases hi
  · rw [hv] at hi
    split at hi
    case isTrue     => cases hi
    case isFalse hp => rw [hu, find?_deleteUnits (h i hi)]; simpa using hp

-- What deleting the units of some paths leads to, after each of its statements.
structure Drops (db₀ db : Db F) : Prop where
  owned : db.Owned
  clean : db₀.NoneLeft db
  table : db₀.embeddings = none → db.embeddings = none

theorem Drops.deleteVectors {q : String → Bool} (h : db₀.Drops db) : db₀.Drops (db.deleteVectors q) where
  owned i hi := by
    rw [vec?_deleteVectors] at hi
    split at hi
    case isTrue  => cases hi
    case isFalse => exact h.owned i hi
  clean      := h.clean
  table hn   := by simp [Db.deleteVectors, h.table hn]

theorem Drops.deleteRelations {q : Relation → Bool} (h : db₀.Drops db) :
    db₀.Drops (db.deleteRelations q) where
  owned            := h.owned
  clean i hs hn r hr := h.clean i hs hn r (Table.mem_delete.mp hr).left
  table            := h.table

-- The units go last.
theorem Drops.deleteUnits (h : db₀.Drops db) (hv : ∀ i, db.unitIdWhere p i → db.vec? i = none)
    (hr : ∀ r ∈ db.relations, ¬db.unitIdWhere p r.fromId ∧ ¬db.unitIdWhere p r.toId) :
    db₀.Drops (db.deleteUnits p) where
  owned i hi := by
    have hs := h.owned i hi
    refine (find?_deleteUnits hs).mpr ?_
    cases hp : db.unitIdWhere p i
    case false => rfl
    case true  =>
      have hn : (db.deleteUnits p).vec? i = none := hv i hp
      rw [hn] at hi
      cases hi
  clean i hs hn r hm := by
    cases hu : db.units.find? i
    case none   => exact h.clean i hs hu r hm
    case some u =>
      have hp : db.unitIdWhere p i := by
        have hd := (find?_deleteUnits (p := p) (Option.isSome_iff_exists.mpr ⟨u, hu⟩)).not
        rw [Option.not_isSome_iff_eq_none] at hd
        simpa using hd.mp hn
      obtain ⟨hf, ht⟩ := hr r hm
      exact ⟨fun he => hf (he ▸ hp), fun he => ht (he ▸ hp)⟩
  table      := h.table

end Db

-- A property of the tables and of those to which an open transaction rolls back.
def World.Held {F : Floats} (P : Db F → Prop) (w : World F) : Prop :=
  P w.db ∧ ∀ db ∈ w.saved, P db

-- So it is a property of what other sessions find.
theorem World.Held.committed {F : Floats} {P : Db F → Prop} {w : World F} (h : w.Held P) : P w.committed := by
  unfold World.committed
  cases hs : w.saved
  case none    => exact h.left
  case some db => exact h.right db hs

namespace Conn

variable {F : Floats} {w w' : World F} {embedder : Embedder F} {path : String} {ids : List String}

-- Deleting stale units deletes the relations that start at one of them, and then the units.
theorem deleteStaleUnits_rows : (deleteStaleUnits embedder path ids).post (fun r w' =>
    ((∃ e, r = .error e) ∧ w'.db.units = w.db.units) ∨
      (r = .ok () ∧ w'.db.units = w.db.units.delete (isStale path ids) ∧
        w'.db.relations = w.db.relations.delete (w.db.unitIdWhere (isStale path ids) ·.fromId))) w := by
  refine post_bind ensureEmbeddingsBound_post (fun _ w₁ ⟨hb, _⟩ => ?_)
    fun e w₁ ⟨hb, _⟩ => .inl ⟨⟨e, rfl⟩, hb.db.units⟩
  refine post_bind execute_post ?_ ?_
  case refine_2 =>
    rintro e _ (⟨⟨f, rfl⟩, _⟩ | ⟨_, _, _, _, _, h⟩)
    case inl => exact .inl ⟨⟨e, rfl⟩, hb.db.units⟩
    case inr => cases h
  rintro _ _ (⟨_, e, h⟩ | ⟨_, f, hf, _, rfl, _⟩)
  case inl => cases h
  split at hf <;> cases hf
  refine post_bind execute_post ?_ ?_
  case refine_2 =>
    rintro e _ (⟨⟨f', rfl⟩, _⟩ | ⟨_, _, _, _, _, h⟩)
    case inl => exact .inl ⟨⟨e, rfl⟩, hb.db.units⟩
    case inr => cases h
  rintro _ _ (⟨_, e, h⟩ | ⟨_, f', hf, _, rfl, _⟩)
  case inl => cases h
  cases hf
  refine post_mono execute_post ?_
  rintro _ _ (⟨⟨f'', rfl⟩, e, rfl⟩ | ⟨_, f'', hf, _, rfl, rfl⟩)
  case inl => exact .inl ⟨⟨e, rfl⟩, hb.db.units⟩
  cases hf
  refine .inr ⟨rfl, by rw [←hb.db.units]; rfl, ?_⟩
  have hw : w₁.db.unitIdWhere (isStale path ids) = w.db.unitIdWhere (isStale path ids) := by
    funext i
    simp only [Db.unitIdWhere, hb.db.units]
  rw [←hw, ←hb.db.relations]
  rfl

section Transaction

variable {P : Db F → Prop} {body : Conn F Unit}

private theorem begin_held (h : w.Held P) : beginTransaction.post (fun _ w' => w'.Held P) w := by
  unfold beginTransaction statement EStateM.post
  dsimp only
  split
  case isTrue => exact h
  case isFalse =>
    cases hs : w.tick.saved
    case some => exact h
    case none => exact ⟨h.left, fun db hdb => by cases hdb; exact h.left⟩

private theorem commit_held (h : w.Held P) : commit.post (fun _ w' => w'.Held P) w := by
  unfold commit statement EStateM.post
  dsimp only
  split
  case isTrue  => exact h
  case isFalse => exact ⟨h.left, nofun⟩

private theorem rollback_held (h : w.Held P) : rollback.post (fun _ w' => w'.Held P) w := by
  unfold rollback statement EStateM.post
  dsimp only
  split
  case isTrue  => exact h
  case isFalse =>
    cases hs : w.tick.saved
    case some db => exact ⟨h.right db hs, nofun⟩
    case none    => exact h

-- What holds before a transaction and after each of its statements holds after it, also when it is
-- rolled back, and when the rollback fails.
theorem transaction_held (h : w.Held P)
    (hx : ∀ w₁, w₁.Held P → w₁.db = w.db → body.post (fun _ w' => w'.Held P) w₁) :
    (transaction body).post (fun _ w' => w'.Held P) w := by
  refine post_bind (P := fun _ w' => w'.Held P ∧ w'.db = w.db) ?_ ?_ fun _ _ h => h.left
  · refine post_and (begin_held h) ?_
    unfold beginTransaction statement EStateM.post
    dsimp only
    split
    case isTrue  => rfl
    case isFalse => cases w.tick.saved <;> rfl
  rintro _ w₁ ⟨h₁, hdb⟩
  refine post_tryCatch (P := fun _ w' => w'.Held P) ?_ (fun _ _ => id) fun e w₂ h₂ => ?_
  · exact post_bind (hx w₁ h₁ hdb) (fun _ w₂ h₂ => commit_held h₂) fun _ _ => id
  · exact post_bind (rollback_held h₂) (fun _ _ h => post_throw h) fun _ _ => id

end Transaction

variable {db₀ : Db F} {P : Db F → Prop}

-- A statement that keeps a property of the tables.
theorem execute_held {f : Db F → Except Exn (Db F)} (h : w.Held P)
    (hf : ∀ db, f w.db = .ok db → P db) : (execute f).post (fun _ w' => w'.Held P) w := by
  refine post_mono execute_post ?_
  rintro _ _ (⟨⟨fs, rfl⟩, _⟩ | ⟨db, fs, hdb, _, rfl, _⟩)
  case inl => exact h
  case inr => exact ⟨hf db hdb, h.right⟩

private theorem deletePathVectors_post {b : Bool} {p : UnitRow → Bool}
    (hb : b = db₀.embeddings.isSome) (h : w.Held db₀.Drops) :
    (if b then deleteVectors (·.unitIdWhere p) else pure ()).post (fun r w' => w'.Held db₀.Drops ∧
      (r = .ok () → ∀ i, w'.db.unitIdWhere p i → w'.db.vec? i = none)) w := by
  cases b
  case false =>
    have hn : w.db.embeddings = none := h.left.table (by simpa using hb.symm)
    exact post_pure ⟨h, fun _ i _ => by rw [Db.vec?, hn, Option.bind_none]⟩
  case true =>
    rw [if_pos rfl]
    refine post_mono (post_and (execute_held h ?_) execute_post) ?_
    · intro db hdb
      split at hdb <;> cases hdb
      exact h.left.deleteVectors
    rintro _ _ ⟨hh, ⟨⟨fs, rfl⟩, e, rfl⟩ | ⟨db, fs, hdb, _, rfl, rfl⟩⟩
    case inl => exact ⟨hh, fun he => by cases he⟩
    case inr =>
      refine ⟨hh, fun _ i hi => ?_⟩
      split at hdb <;> cases hdb
      exact Db.vec?_deleteVectors.trans (if_pos hi)

theorem deletePath_held {b : Bool} {stored : String} (hb : b = db₀.embeddings.isSome)
    (h : w.Held db₀.Drops) : (deletePath b stored).post (fun _ w' => w'.Held db₀.Drops) w := by
  refine post_bind (deletePathVectors_post hb h) (fun _ w₁ ⟨h₁, hv⟩ => ?_) fun _ _ h => h.left
  have hv := hv rfl
  refine post_bind (P := fun r w₂ => w₂.Held db₀.Drops ∧ (r = .ok () → w₂.db = w₁.db.deleteRelations
    fun r => w₁.db.unitIdWhere (decide <| ·.path = stored) r.fromId ||
      w₁.db.unitIdWhere (decide <| ·.path = stored) r.toId)) ?_ (fun _ w₂ ⟨h₂, hdb⟩ => ?_)
      fun _ _ h => h.left
  · refine post_mono (post_and (execute_held h₁ ?_) execute_post) ?_
    · intro db hdb
      cases hdb
      exact h₁.left.deleteRelations
    rintro _ _ ⟨hh, ⟨⟨fs, rfl⟩, e, rfl⟩ | ⟨db, fs, hdb, _, rfl, rfl⟩⟩
    case inl => exact ⟨hh, nofun⟩
    case inr => exact ⟨hh, fun _ => (Except.ok.inj hdb).symm⟩
  · have hdb := hdb rfl
    refine execute_held h₂ fun db hd => ?_
    cases hd
    refine h₂.left.deleteUnits ?_ fun r hr => ?_
    · rw [hdb]
      exact hv
    · rw [hdb] at hr ⊢
      have hp := (Table.mem_delete.mp hr).right
      rw [Bool.or_eq_false_iff] at hp
      exact ⟨fun hf => Bool.false_ne_true (hp.left.symm.trans hf),
        fun ht => Bool.false_ne_true (hp.right.symm.trans ht)⟩

theorem deletePaths_held {b : Bool} {paths : List String} (hb : b = db₀.embeddings.isSome)
    (h : w.Held db₀.Drops) : (paths.forM (deletePath b)).post (fun _ w' => w'.Held db₀.Drops) w := by
  induction paths generalizing w
  case nil             => exact post_pure h
  case cons path paths ih =>
    exact post_bind (deletePath_held hb h) (fun _ _ h => ih h) fun _ _ => id

-- Deleting the units of some paths leaves nothing of them, however it ends.
theorem deleteAbsolutePaths_held {paths : List String} (h : w.Held Db.Owned) :
    (deleteAbsolutePaths paths).post (fun _ w' => w'.Held Db.Owned ∧ w.db.NoneLeft w'.db) w := by
  cases hs : w.saved
  case some db =>
    -- The transaction is refused, as there is one already.
    have hb : ∃ e, beginTransaction w = .error e w.tick := by
      unfold beginTransaction statement
      cases w.faults 0
      case true  => exact ⟨_, rfl⟩
      case false => exact ⟨.database "cannot start a transaction within a transaction", by simp [hs]⟩
    obtain ⟨e, hb⟩ := hb
    exact post_of_error (bind_of_error hb) ⟨h, .of_units rfl⟩
  case none =>
    have hd : w.Held w.db.Drops := ⟨⟨h.left, .of_units rfl, id⟩, by rw [hs]; exact nofun⟩
    refine post_mono (transaction_held hd fun w₁ h₁ hdb => ?_) ?_
    · refine post_bind select_post (fun b w₂ ⟨⟨fs, hw⟩, hb⟩ => ?_) ?_
      · subst hw
        refine deletePaths_held ?_ h₁
        rw [hb b rfl, hdb]
      · rintro _ _ ⟨⟨fs, rfl⟩, _⟩
        exact h₁
    · exact fun _ _ h => ⟨⟨h.left.owned, fun db hdb => (h.right db hdb).owned⟩, h.left.clean⟩

theorem upsertUnit_held {u : KnowledgeUnit} {vector : Option (List F)} (h : w.Held Db.Owned) :
    (upsertUnit embedder u vector).post (fun _ w' => w'.Held Db.Owned) w := by
  refine post_mono upsertUnit_post ?_
  rintro r w' ⟨w₁, hu⟩
  obtain ⟨f, hw⟩ := hu.frame
  refine ⟨(h.left.binds hu.binds.db).stores hu.stores, ?_⟩
  rw [hw]
  exact hu.binds.saved ▸ h.right

theorem upsertRelation_held {r : Relation} (h : w.Held Db.Owned) :
    (upsertRelation r).post (fun _ w' => w'.Held Db.Owned) w := by
  refine execute_held h fun db hdb => ?_
  cases hdb
  exact h.left.of_eq rfl fun _ => rfl

theorem deleteStaleUnits_held (h : w.Held Db.Owned) :
    (deleteStaleUnits embedder path ids).post (fun _ w' => w'.Held Db.Owned) w := by
  refine post_mono deleteStaleUnits_post ?_
  rintro r w' ⟨w₁, f, _, hb, hw, hd, _⟩
  refine ⟨(h.left.binds hb.db).deletes hd, ?_⟩
  rw [hw]
  exact hb.saved ▸ h.right

-- Deleted relations start at a stale unit; those that end at one stay.
theorem noneLeft_stale {db db' : Db F} {p : UnitRow → Bool} (hu : db'.units = db.units.delete p)
    (hr : db'.relations = db.relations.delete (db.unitIdWhere p ·.fromId)) :
    db.NoneLeft db' ↔
      ∀ r ∈ db.relations, db.unitIdWhere p r.toId → db.unitIdWhere p r.fromId := by
  have hsome : ∀ i, db.unitIdWhere p i → (db.units.find? i).isSome := by
    intro i hp
    cases hf : db.units.find? i
    case none => simp [Db.unitIdWhere, hf] at hp
    case some => rfl
  have hgone : ∀ i, (db.units.find? i).isSome → (db'.units.find? i = none ↔ db.unitIdWhere p i) := by
    intro i hs
    rw [hu, ←Option.not_isSome_iff_eq_none, Db.find?_deleteUnits hs, Bool.not_eq_false]
  constructor
  case mp =>
    intro h r hm ht
    by_contra hf
    have hs := hsome _ ht
    have hm' : r ∈ db'.relations := by
      rw [hr]
      exact Table.mem_delete.mpr ⟨hm, by simpa using hf⟩
    exact (h r.toId hs ((hgone _ hs).mpr ht) r hm').right rfl
  case mpr =>
    intro h i hs hn r hm
    have hp := (hgone i hs).mp hn
    rw [hr] at hm
    obtain ⟨hm, hf⟩ := Table.mem_delete.mp hm
    refine ⟨?_, ?_⟩
    · rintro rfl
      exact Bool.false_ne_true (hf.symm.trans hp)
    · rintro rfl
      exact Bool.false_ne_true (hf.symm.trans (h r hm hp))

end Conn

-- The calls that change units, vectors and relations.
inductive Change (F : Floats)
  | upsertUnit (unit : KnowledgeUnit) (vector : Option (List F))
  | upsertRelation (relation : Relation)
  | deleteStaleUnits (filePath : String) (currentUnitIds : List String)
  | deleteAbsolutePaths (paths : List String)

namespace Change

open Conn

variable {F : Floats} {embedder : Embedder F} {w₀ w : World F} {c : Change F}

def run (embedder : Embedder F) : Change F → Conn F Unit
  | upsertUnit unit vector                  => Conn.upsertUnit embedder unit vector
  | upsertRelation relation                 => Conn.upsertRelation relation
  | deleteStaleUnits filePath currentUnitIds =>
    Conn.deleteStaleUnits embedder filePath currentUnitIds
  | deleteAbsolutePaths paths               => Conn.deleteAbsolutePaths paths

def IsDeletion : Change F → Prop
  | deleteStaleUnits .. | deleteAbsolutePaths .. => True
  | _                                            => False

-- No relation leads from a unit that stays to a stale one.
def Spares (db : Db F) : Change F → Prop
  | deleteStaleUnits filePath currentUnitIds =>
    ∀ r ∈ db.relations, db.unitIdWhere (isStale filePath currentUnitIds) r.toId →
      db.unitIdWhere (isStale filePath currentUnitIds) r.fromId
  | _                                        => True

-- An index without units, vectors and relations, outside of a transaction.
structure Fresh (w : World F) : Prop where
  units     : ∀ i, w.db.units.find? i = none
  vecs      : ∀ i, w.db.vec? i = none
  relations : ∀ r, r ∉ w.db.relations
  saved     : w.saved = none

-- The states that calls lead to, whichever of their statements fail.
inductive Reaches (embedder : Embedder F) (w₀ : World F) : World F → Prop
  | refl : Reaches embedder w₀ w₀
  | call {w : World F} (c : Change F) :
    Reaches embedder w₀ w → Reaches embedder w₀ (c.run embedder w).state

theorem run_held (h : w.Held Db.Owned) : (c.run embedder).post (fun _ w' => w'.Held Db.Owned) w := by
  cases c
  case upsertUnit          => exact upsertUnit_held h
  case upsertRelation      => exact upsertRelation_held h
  case deleteStaleUnits    => exact deleteStaleUnits_held h
  case deleteAbsolutePaths => exact post_mono (deleteAbsolutePaths_held h) fun _ _ h => h.left

theorem Reaches.held (h : Reaches embedder w₀ w) (h₀ : Fresh w₀) : w.Held Db.Owned := by
  induction h
  case refl =>
    refine ⟨fun i hi => ?_, by rw [h₀.saved]; exact nofun⟩
    rw [h₀.vecs i] at hi
    cases hi
  case call c _ ih => exact run_held ih

-- In every state that calls lead to from an empty index, each vector has its unit. A deletion that
-- fails deletes no unit of a relation that stays; one that returns leaves no relation of a deleted
-- unit iff none led to a stale unit from a unit that stays.
theorem noneLeft_iff (h₀ : Fresh w₀) (h : Reaches embedder w₀ w) :
    w.db.Owned ∧ ∀ c : Change F, c.IsDeletion →
      ((∃ e, (c.run embedder w).outcome = .error e) →
        w.db.NoneLeft (c.run embedder w).state.db) ∧
      ((c.run embedder w).outcome = .ok () →
        (w.db.NoneLeft (c.run embedder w).state.db ↔ c.Spares w.db)) := by
  have hw := h.held h₀
  refine ⟨hw.left, fun c hc => ?_⟩
  cases c
  case upsertUnit     => exact hc.elim
  case upsertRelation => exact hc.elim
  case deleteStaleUnits path ids =>
    have hp : (Conn.deleteStaleUnits embedder path ids).post _ w := deleteStaleUnits_rows
    obtain ⟨⟨e, he⟩, hu⟩ | ⟨hok, hu, hr⟩ := hp
    case inl => exact ⟨fun _ => .of_units hu, fun hok => absurd (he.symm.trans hok) nofun⟩
    case inr =>
      refine ⟨?_, fun _ => noneLeft_stale hu hr⟩
      rintro ⟨e, he⟩
      cases hok.symm.trans he
  case deleteAbsolutePaths paths =>
    have hp : (Conn.deleteAbsolutePaths paths).post _ w := deleteAbsolutePaths_held hw
    exact ⟨fun _ => hp.right, fun _ => iff_of_true hp.right trivial⟩

section Sample

private def lengths₀ : Embedder naturals where
  modelId        := "m"
  aembed _ texts := .ok (texts.map fun t => [t.length])

private def unitOf (i path : String) (rels : List Relation) : KnowledgeUnit where
  id        := i
  kind      := .function
  name      := i
  path      := path
  signature := none
  docstring := none
  summary   := none
  codeHash  := i
  tags      := []
  metadata  := []
  relations := rels

private def calls : Relation where
  fromId := "g"
  toId   := "f"
  type   := .calls

private def start : World naturals :=
  .connect { Db.empty with indexMeta := some .empty } .readWrite none (fun _ => false) (fun _ => false)

private theorem start_fresh : Fresh start :=
  ⟨fun _ => rfl, fun _ => rfl, fun _ => Table.not_mem_empty, rfl⟩

-- A unit of one file calls one of another file.
private def crossing : World naturals :=
  ((upsertUnit (unitOf "g" "b.py" [calls]) none).run lengths₀
    ((upsertUnit (unitOf "f" "a.py" []) (some [1])).run lengths₀ start).state).state

private theorem crossing_reached : Reaches lengths₀ start crossing :=
  .call _ (.call _ .refl)

theorem noneLeft_iff_sample : crossing.db.Owned ∧
    (crossing.db.NoneLeft ((deleteStaleUnits "b.py" []).run lengths₀ crossing).state.db ↔
      (deleteStaleUnits "b.py" []).Spares crossing.db) := by
  have ⟨hown, hdel⟩ := noneLeft_iff start_fresh crossing_reached
  exact ⟨hown, (hdel (deleteStaleUnits "b.py" []) trivial).right (by decide +kernel)⟩

-- The called unit is deleted, but not the call.
theorem calls_stay : Reaches lengths₀ start crossing ∧
    ((deleteStaleUnits "a.py" []).run lengths₀ crossing).outcome = .ok () ∧
    ¬crossing.db.NoneLeft ((deleteStaleUnits "a.py" []).run lengths₀ crossing).state.db := by
  refine ⟨crossing_reached, by decide +kernel, fun h => ?_⟩
  exact (h "f" (by decide +kernel) (by decide +kernel) calls
    (Table.mem_rows.mp (by decide +kernel))).right rfl

end Sample
end Change
