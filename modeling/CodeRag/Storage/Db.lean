import CodeRag.Lib.Coroutine
import CodeRag.Core.Exceptions
import CodeRag.Core.Models

-- The tables of the index, the state of an open storage, and the statements that run on it.

-- The numbers that vectors consist of. `single` is what a `FLOAT` column keeps of one.
structure Floats where
  Number : Type
  single : Number → Number

instance : CoeSort Floats Type where
  coe := Floats.Number

-- What a column of the type `FLOAT[n]` keeps of a vector.
def Floats.cast (F : Floats) (vec : List F) : List F :=
  vec.map F.single

@[simp]
theorem Floats.length_cast {F : Floats} {vec : List F} : (F.cast vec).length = vec.length :=
  List.length_map _

-- Small natural numbers are such numbers, of which a column keeps all.
abbrev naturals : Floats where
  Number := Nat
  single := id

@[simp]
theorem naturals_cast {vec : List naturals} : naturals.cast vec = vec :=
  List.map_id _

structure VecRow (F : Floats) where
  id  : String
  vec : List F

structure MetaRow where
  key   : String
  value : String

structure DependencyRow where
  name : String
  path : String

instance : Keyed (VecRow F) String where
  key := VecRow.id

instance : Keyed MetaRow String where
  key := MetaRow.key

instance : Keyed DependencyRow String where
  key := DependencyRow.name

@[simp]
theorem key_vecRow {r : VecRow F} : key r = r.id :=
  rfl

@[simp]
theorem key_metaRow {r : MetaRow} : key r = r.key :=
  rfl

def MAX_ARRAY_SIZE : Nat := 100000

-- The sizes of arrays that the database has types for.
structure ArraySize (n : Nat) : Prop where
  pos : 0 < n
  le  : n ≤ MAX_ARRAY_SIZE

instance {n : Nat} : Decidable (ArraySize n) :=
  decidable_of_iff (0 < n ∧ n ≤ MAX_ARRAY_SIZE) ⟨fun h => ⟨h.left, h.right⟩, fun h => ⟨h.pos, h.le⟩⟩

theorem ArraySize.one : ArraySize 1 := by
  decide

-- The `unit_embeddings` table. Its `vec` column has the type `FLOAT[n]` for the given width `n`, or
-- some other type when there is none.
structure Embeddings (F : Floats) where
  width      : Option Nat
  rows       : Table (VecRow F)
  width_size : ∀ n ∈ width, ArraySize n
  rows_width : ∀ n ∈ width, ∀ r ∈ rows, r.vec.length = n

structure Db (F : Floats) where
  units        : Table UnitRow
  embeddings   : Option (Embeddings F)
  relations    : Table Relation
  dependencies : Table DependencyRow
  indexMeta    : Option (Table MetaRow)

namespace Embeddings

def create (n : Nat) (h : ArraySize n) : Embeddings F where
  width      := n
  rows       := .empty
  width_size := by simpa using h
  rows_width := by simp

def Fits (e : Embeddings F) (vec : List F) : Prop :=
  ∀ n ∈ e.width, vec.length = n

instance {e : Embeddings F} {vec : List F} : Decidable (e.Fits vec) :=
  inferInstanceAs (Decidable (∀ n ∈ e.width, vec.length = n))

theorem fits_cast {e : Embeddings F} {vec : List F} : e.Fits (F.cast vec) ↔ e.Fits vec := by
  unfold Fits
  rw [Floats.length_cast]

def insert (e : Embeddings F) (r : VecRow F) (h : e.Fits r.vec) : Embeddings F where
  width      := e.width
  rows       := e.rows.insert r
  width_size := e.width_size
  rows_width := by
    intro n hn r' hr
    obtain rfl | ⟨hr, _⟩ := Table.mem_insert.mp hr
    · exact h n hn
    · exact e.rows_width n hn r' hr

def delete (e : Embeddings F) (p : VecRow F → Bool) : Embeddings F where
  width      := e.width
  rows       := e.rows.delete p
  width_size := e.width_size
  rows_width := fun n hn r hr => e.rows_width n hn r (Table.mem_delete.mp hr).left

-- UPDATE of the ids.
def rename (e : Embeddings F) (f : String → String) : Option (Embeddings F) :=
  match h : e.rows.update fun r => { r with id := f r.id } with
  | none      => none
  | some rows => some {
      width      := e.width
      rows       := rows
      width_size := e.width_size
      rows_width := by
        intro n hn r hr
        obtain ⟨r', hr', rfl⟩ := (Table.mem_update h).mp hr
        exact e.rows_width n hn r' hr' }

@[simp]
theorem insert_rows {e : Embeddings F} {r : VecRow F} {h : e.Fits r.vec} :
    (e.insert r h).rows = e.rows.insert r :=
  rfl

@[simp]
theorem insert_width {e : Embeddings F} {r : VecRow F} {h : e.Fits r.vec} :
    (e.insert r h).width = e.width :=
  rfl

@[simp]
theorem delete_rows {e : Embeddings F} {p : VecRow F → Bool} :
    (e.delete p).rows = e.rows.delete p :=
  rfl

@[simp]
theorem delete_width {e : Embeddings F} {p : VecRow F → Bool} : (e.delete p).width = e.width :=
  rfl

end Embeddings

namespace Db

variable {F : Floats} {db : Db F} {i : String}

def empty : Db F where
  units        := .empty
  embeddings   := none
  relations    := .empty
  dependencies := .empty
  indexMeta    := none

-- The vector stored for an id.
def vec? (db : Db F) (i : String) : Option (List F) :=
  db.embeddings.bind fun e => (e.rows.find? i).map VecRow.vec

def width? (db : Db F) : Option Nat :=
  db.embeddings.bind Embeddings.width

-- The value stored for a key of `index_meta`.
def meta? (db : Db F) (k : String) : Option String :=
  db.indexMeta.bind fun t => (t.find? k).map MetaRow.value

def setMeta (db : Db F) (k v : String) : Db F :=
  { db with indexMeta := db.indexMeta.map (·.insert { key := k, value := v }) }

@[simp] theorem setMeta_units {k v : String} : (db.setMeta k v).units = db.units := rfl
@[simp] theorem setMeta_embeddings {k v : String} : (db.setMeta k v).embeddings = db.embeddings := rfl
@[simp] theorem setMeta_relations {k v : String} : (db.setMeta k v).relations = db.relations := rfl
@[simp] theorem setMeta_vec? {k v : String} : (db.setMeta k v).vec? i = db.vec? i := rfl
@[simp] theorem setMeta_width? {k v : String} : (db.setMeta k v).width? = db.width? := rfl

@[simp]
theorem setMeta_isSome {k v : String} : (db.setMeta k v).indexMeta.isSome = db.indexMeta.isSome := by
  simp [setMeta]

theorem meta?_setMeta {k k' v : String} (h : db.indexMeta.isSome) :
    (db.setMeta k v).meta? k' = if k' = k then some v else db.meta? k' := by
  obtain ⟨t, ht⟩ := Option.isSome_iff_exists.mp h
  simp only [meta?, setMeta, ht, Option.map_some, Option.bind_some, Table.find?_insert, key_metaRow]
  split <;> rfl

theorem vec?_of_embeddings {e : Embeddings F} (h : db.embeddings = some e) :
    db.vec? i = (e.rows.find? i).map VecRow.vec := by
  simp [vec?, h]

theorem vec?_eq_some_iff {v : List F} :
    db.vec? i = some v ↔ ∃ e, db.embeddings = some e ∧ ∃ r ∈ e.rows, r.id = i ∧ r.vec = v := by
  simp only [vec?, Option.bind_eq_some_iff, Option.map_eq_some_iff, Table.find?_eq_some_iff,
    key_vecRow]
  constructor
  case mp  => rintro ⟨e, he, r, ⟨hr, hi⟩, hv⟩; exact ⟨e, he, r, hr, hi, hv⟩
  case mpr => rintro ⟨e, he, r, hr, hi, hv⟩; exact ⟨e, he, r, ⟨hr, hi⟩, hv⟩

end Db

inductive AccessMode
  | readOnly
  | readWrite
  deriving DecidableEq, Repr

-- The calls of a model, as an observer of the network sees them.
inductive Call
  | summarize (code name : String) (summary : Option String)
  | aembed (texts : List String)
  deriving DecidableEq, Repr

-- An open storage with everything its operations read and write. `faults n` states that the `n`-th
-- next statement or embedding call raises, `llmFaults n` the same of the `n`-th next call of the
-- summarizer. `dimension` is the width its embedder is bound to, `saved` the state to which an open
-- transaction rolls back.
structure World (F : Floats) where
  db          : Db F
  saved       : Option (Db F)
  mode        : AccessMode
  dirty       : Bool
  bound       : Bool
  pendingWipe : Bool
  dimension   : Option Nat
  faults      : Nat → Bool
  llmFaults   : Nat → Bool
  calls       : List Call

namespace World

variable {F : Floats} {w : World F}

def tick (w : World F) : World F :=
  { w with faults := fun n => w.faults (n + 1) }

def FaultFree (w : World F) : Prop :=
  w.faults = fun _ => false

-- The tables as other sessions find them.
def committed (w : World F) : Db F :=
  w.saved.getD w.db

@[simp] theorem tick_db : w.tick.db = w.db := rfl
@[simp] theorem tick_saved : w.tick.saved = w.saved := rfl
@[simp] theorem tick_mode : w.tick.mode = w.mode := rfl
@[simp] theorem tick_dirty : w.tick.dirty = w.dirty := rfl
@[simp] theorem tick_bound : w.tick.bound = w.bound := rfl
@[simp] theorem tick_pendingWipe : w.tick.pendingWipe = w.pendingWipe := rfl
@[simp] theorem tick_dimension : w.tick.dimension = w.dimension := rfl
@[simp] theorem tick_llmFaults : w.tick.llmFaults = w.llmFaults := rfl
@[simp] theorem tick_calls : w.tick.calls = w.calls := rfl

-- The session that writes sees what is committed, as every write is committed on its own.
theorem committed_eq (hs : w.saved = none) : w.committed = w.db := by
  rw [committed, hs]
  rfl

theorem FaultFree.tick (h : w.FaultFree) : w.tick = w := by
  have hf : (fun n => w.faults (n + 1)) = w.faults := by rw [h]
  simp [World.tick, hf]

theorem FaultFree.faults_eq (h : w.FaultFree) {n : Nat} : w.faults n = false :=
  congrFun h n

end World

-- Work on an open storage.
abbrev Conn (F : Floats) := EStateM Exn (World F)

namespace Conn

variable {F : Floats} {α : Type} {w : World F}

def statement (f : World F → EStateM.Result Exn (World F) α) : Conn F α := fun w =>
  if w.faults 0 then .error (.database "statement failed") w.tick else f w.tick

-- A statement that only reads.
def select (f : Db F → α) : Conn F α :=
  statement fun w => .ok (f w.db) w

-- A statement that changes the tables, which a read-only connection refuses.
def execute (f : Db F → Except Exn (Db F)) : Conn F Unit :=
  statement fun w =>
    match w.mode with
    | .readOnly  => .error (.database "cannot execute statement in read-only mode") w
    | .readWrite =>
      match f w.db with
      | .ok db   => .ok () { w with db := db }
      | .error e => .error e w

def beginTransaction : Conn F Unit :=
  statement fun w =>
    match w.saved with
    | some _ => .error (.database "cannot start a transaction within a transaction") w
    | none   => .ok () { w with saved := some w.db }

def commit : Conn F Unit :=
  statement fun w => .ok () { w with saved := none }

def rollback : Conn F Unit :=
  statement fun w =>
    match w.saved with
    | some db => .ok () { w with db := db, saved := none }
    | none    => .error (.database "no transaction is active") w

theorem statement_of_faultFree (h : w.FaultFree)
    {f : World F → EStateM.Result Exn (World F) α} : statement f w = f w := by
  simp [statement, h.faults_eq, h.tick]

theorem select_of_faultFree (h : w.FaultFree) {f : Db F → α} : select f w = .ok (f w.db) w :=
  statement_of_faultFree h

theorem execute_of_faultFree (h : w.FaultFree) (hm : w.mode = .readWrite)
    {f : Db F → Except Exn (Db F)} : execute f w =
      match f w.db with
      | .ok db   => .ok () { w with db := db }
      | .error e => .error e w := by
  simp [execute, statement_of_faultFree h, hm]

end Conn
