import CodeRag.Storage.Theorems.DuckDB

-- Which writes leave no trace when one of their statements fails.

namespace Db

variable {F : Floats} {db db' db'' : Db F} {u : UnitRow} {i k v : String}

-- The tables have the same contents, including what is recorded about the vectors.
structure Same (db db' : Db F) : Prop extends SameTables db db' where
  keys      : ∀ k, db'.meta? k = db.meta? k
  indexMeta : db'.indexMeta.isSome = db.indexMeta.isSome
  table     : db'.embeddings.isSome = db.embeddings.isSome
  width     : db'.width? = db.width?

theorem Same.refl : db.Same db :=
  ⟨.refl, fun _ => rfl, rfl, rfl, rfl⟩

theorem Same.trans (h : db.Same db') (h' : db'.Same db'') : db.Same db'' where
  toSameTables := h.toSameTables.trans h'.toSameTables
  keys k       := (h'.keys k).trans (h.keys k)
  indexMeta    := h'.indexMeta.trans h.indexMeta
  table        := h'.table.trans h.table
  width        := h'.width.trans h.width

theorem Same.symm (h : db.Same db') : db'.Same db where
  units row   := (h.units row).symm
  vec i       := (h.vec i).symm
  relations r := (h.relations r).symm
  keys k      := (h.keys k).symm
  indexMeta   := h.indexMeta.symm
  table       := h.table.symm
  width       := h.width.symm

theorem same_setMeta (h : db.meta? k = some v) : db.Same (db.setMeta k v) := by
  have hi : db.indexMeta.isSome := by
    cases hi : db.indexMeta
    case none   => simp [meta?, hi] at h
    case some t => rfl
  refine { (Same.refl : db.Same db) with keys := fun k' => ?_, indexMeta := setMeta_isSome }
  rw [meta?_setMeta hi]
  split
  case isTrue he => rw [he, h]
  case isFalse   => rfl

theorem same_insertUnit : db.Same (db.insertUnit u) ↔ u ∈ db.units := by
  constructor
  case mp  => exact fun h => (h.units u).mp (Table.mem_insert.mpr (.inl rfl))
  case mpr => exact fun h => { (Same.refl : db.Same db) with units := fun _ => Table.mem_insert_of_mem h }

theorem same_insertRelation {r : Relation} : db.Same (db.insertRelation r) ↔ r ∈ db.relations := by
  constructor
  case mp  => exact fun h => (h.relations r).mp (Table.mem_insert.mpr (.inl rfl))
  case mpr =>
    exact fun h => { (Same.refl : db.Same db) with relations := fun _ => Table.mem_insert_of_mem h }

theorem same_insertVector {e : Embeddings F} {vec : List F} {h : e.Fits vec}
    (he : db.embeddings = some e) :
    db.Same { db with embeddings := some (e.insert { id := i, vec := vec } h) } ↔
      db.vec? i = some vec := by
  constructor
  case mp =>
    intro hs
    rw [←hs.vec, vec?_insert he, if_pos rfl]
  case mpr =>
    intro hv
    refine { (Same.refl : db.Same db) with vec := fun j => ?_, table := by rw [he]; rfl, width := ?_ }
    · rw [vec?_insert he]
      split
      case isTrue hj => rw [hj, hv]
      case isFalse   => rfl
    · simp [width?, he]

theorem same_deleteVectors {p : String → Bool} :
    db.Same (db.deleteVectors p) ↔ ∀ i, p i → db.vec? i = none := by
  constructor
  case mp  => exact fun h i hi => by rw [←h.vec, vec?_deleteVectors, if_pos hi]
  case mpr =>
    intro h
    refine { (Same.refl : db.Same db) with vec := fun i => ?_, table := ?_, width := ?_ }
    · rw [vec?_deleteVectors]
      split
      case isTrue hi => rw [h i hi]
      case isFalse   => rfl
    · simp [deleteVectors]
    · unfold width? deleteVectors
      cases db.embeddings <;> rfl

theorem same_deleteRelations {p : Relation → Bool} :
    db.Same (db.deleteRelations p) ↔ ∀ r ∈ db.relations, p r = false := by
  constructor
  case mp  => exact fun h r hr => (Table.mem_delete.mp ((h.relations r).mpr hr)).right
  case mpr =>
    refine fun h => { (Same.refl : db.Same db) with relations := fun r => ?_ }
    exact Table.mem_delete.trans ⟨And.left, fun hr => ⟨hr, h r hr⟩⟩

end Db

namespace Conn

open EStateM World

variable {F : Floats} {w : World F} {embedder : Embedder F}

-- However the statements fail: if the operation raises, then the committed tables are as before.
def AllOrNothing (x : Conn F Unit) (w : World F) : Prop :=
  ∀ φ e w', x (w.withFaults φ) = .error e w' → w.committed.Same w'.committed

section Transaction

variable {body : Conn F Unit} {db : Db F}

private theorem beginTransaction_post : beginTransaction.post
    (fun r w' => w'.committed = w.committed ∧ (r = .ok () →
      w.saved = none ∧ w'.saved = some w.db ∧ w'.db = w.db ∧ w'.mode = w.mode)) w := by
  unfold beginTransaction statement EStateM.post
  dsimp only
  split
  case isTrue => exact ⟨rfl, nofun⟩
  case isFalse =>
    cases hs : w.tick.saved
    case some => exact ⟨rfl, nofun⟩
    case none =>
      have hc : w.committed = w.db := by rw [committed, show w.saved = none from hs]; rfl
      exact ⟨hc.symm, fun _ => ⟨hs, rfl, rfl, rfl⟩⟩

private theorem commit_post (hs : w.saved = some db) :
    commit.post (fun r w' => (∀ e, r = .error e → w'.saved = some db) ∧
      (r = .ok () → w'.saved = none ∧ w'.db = w.db)) w := by
  unfold commit statement EStateM.post
  dsimp only
  split
  case isTrue  => exact ⟨fun _ _ => hs, nofun⟩
  case isFalse => exact ⟨nofun, fun _ => ⟨rfl, rfl⟩⟩

private theorem rollback_post (hs : w.saved = some db) :
    rollback.post (fun _ w' => w'.committed = db) w := by
  unfold rollback statement EStateM.post
  dsimp only
  split
  case isTrue  => rw [Result.state_error, committed, tick_saved, hs]; rfl
  case isFalse => rw [tick_saved, hs]; rfl

-- The statements of a transaction are undone when one of them fails. Other sessions do not see them
-- even when the rollback fails.
theorem transaction_post {P : Db F → Prop} (hb : Built body)
    (hx : ∀ w', w'.db = w.db → w'.mode = w.mode → body.post (fun r w' => r = .ok () → P w'.db) w') :
    (transaction body).post (fun r w' => (∀ e, r = .error e → w'.committed = w.committed) ∧
      (r = .ok () → w.saved = none ∧ w'.saved = none ∧ P w'.db)) w := by
  refine post_bind beginTransaction_post ?_ fun _ _ h => ⟨fun _ _ => h.left, not_ok⟩
  rintro _ w₁ ⟨_, h₁⟩
  obtain ⟨hnone, hs, hdb, hm⟩ := h₁ rfl
  have hc : w.committed = w.db := by rw [committed, hnone]; rfl
  refine post_tryCatch (P := fun r w' => (∀ e, r = .error e → w'.saved = some w.db) ∧
    (r = .ok () → w'.saved = none ∧ P w'.db)) ?_ (fun _ _ h => ⟨fun _ => not_error, fun hr => ⟨hnone, h.right hr⟩⟩)
    fun e w₂ h₂ => ?_
  · refine post_bind (post_and hb.guarded.post (hx w₁ hdb hm)) ?_ ?_
    · rintro _ w₂ ⟨h₂, hP⟩
      refine post_mono (commit_post (h₂.left.trans hs)) fun r w₃ h₃ => ⟨h₃.left, fun hr => ?_⟩
      obtain ⟨hs₃, hd₃⟩ := h₃.right hr
      exact ⟨hs₃, hd₃ ▸ hP rfl⟩
    · exact fun _ w₂ h₂ => ⟨fun _ _ => h₂.left.left.trans hs, not_ok⟩
  · refine post_bind (rollback_post (h₂.left e rfl)) ?_ ?_
    · exact fun _ w₃ h₃ => post_throw ⟨fun _ _ => h₃.trans hc.symm, not_ok⟩
    · exact fun _ w₃ h₃ => ⟨fun _ _ => h₃.trans hc.symm, not_ok⟩

theorem transaction_allOrNothing (hb : Built body) : AllOrNothing (transaction body) w := by
  intro φ e w' h
  have hp := transaction_post (w := w.withFaults φ) (P := fun _ => True) hb fun _ _ _ _ => trivial
  unfold EStateM.post at hp
  rw [h] at hp
  rw [show w'.committed = w.committed from hp.left e rfl]
  exact .refl

theorem rewritePathPrefix_built {old new : String} {hasEmbeddings : Bool} :
    Built (F := F) (rewritePathPrefix old new hasEmbeddings) := by
  refine .bind execute_built fun _ => .bind ?_ fun _ => execute_built
  split
  · exact execute_built
  · exact .pure

theorem commitRewrittenPath_allOrNothing {old new : String} :
    AllOrNothing (commitRewrittenPath old new) w :=
  transaction_allOrNothing (.bind select_built fun _ => rewritePathPrefix_built)

theorem deleteAbsolutePaths_allOrNothing {paths : List String} :
    AllOrNothing (deleteAbsolutePaths paths) w := by
  refine transaction_allOrNothing (.bind select_built fun b => .forM (fun stored => ?_) _)
  refine .bind ?_ fun _ => .bind execute_built fun _ => execute_built
  split
  · exact execute_built
  · exact .pure

end Transaction

section Writes

variable {f : Db F → Except Exn (Db F)} {fs : List (Db F → Except Exn (Db F))}

-- Every write but the last one changes nothing, up to one that is refused.
def AtOnce : List (Db F → Except Exn (Db F)) → Db F → Prop
  | f :: g :: fs, db => ∀ db', f db = .ok db' → db.Same db' ∧ AtOnce (g :: fs) db'
  | _, _             => True

private theorem forM_delay {db : Db F} {φ : Nat → Bool} (hm : w.mode = .readWrite)
    (hf : f w.db = .ok db) : (f :: fs).forM execute (w.withFaults (delay 1 φ)) =
      fs.forM execute (({ w with db := db } : World F).withFaults φ) := by
  refine bind_of_ok (a := ()) ?_
  unfold execute statement
  rw [if_neg (by simp [withFaults, delay])]
  dsimp only
  rw [tick_mode, withFaults_mode, hm, tick_db, withFaults_db, hf]
  rfl

theorem forM_failing : (f :: fs).forM execute (w.withFaults fun _ => true) =
    .error (.database "statement failed") (w.withFaults fun _ => true) :=
  rfl

theorem writes_allOrNothing (hm : w.mode = .readWrite) (hs : w.saved = none) :
    AllOrNothing (fs.forM execute) w ↔ AtOnce fs w.db := by
  induction fs generalizing w
  case nil => exact ⟨fun _ => trivial, fun _ φ e w' h => by cases h⟩
  case cons f fs ih =>
    constructor
    case mp =>
      intro h
      cases fs
      case nil => trivial
      case cons g fs =>
        intro db' hf
        have hc : ∀ φ, (({ w with db := db' } : World F).withFaults φ).committed = db' :=
          fun _ => committed_eq hs
        have hsame : w.db.Same db' := by
          -- The second write fails.
          have hrun := h (delay 1 fun _ => true) _ _ ((forM_delay hm hf).trans forM_failing)
          rwa [committed_eq hs, hc] at hrun
        refine ⟨hsame, (ih (w := { w with db := db' }) hm hs).mp fun φ e w' hrun => ?_⟩
        have hrun := h (delay 1 φ) e w' ((forM_delay hm hf).trans hrun)
        rw [committed_eq hs] at hrun
        show Db.Same (({ w with db := db' } : World F).withFaults φ).committed _
        rw [hc]
        exact hsame.symm.trans hrun
    case mpr =>
      intro h φ e w' hrun
      have hx : (execute f).post _ (w.withFaults φ) := execute_post
      obtain ⟨_, w₁, hok, hrun⟩ | ⟨e₁, w₁, herr, he⟩ := bind_cases hrun
      case inr =>
        cases he
        rw [EStateM.post, herr] at hx
        obtain ⟨⟨fs, rfl⟩, _⟩ | ⟨_, _, _, _, _, h⟩ := hx
        case inl => exact .refl
        case inr => cases h
      case inl =>
        rw [EStateM.post, hok] at hx
        obtain ⟨_, _, h⟩ | ⟨db', φ', hf, _, rfl, _⟩ := hx
        case inl => cases h
        cases fs
        case nil => cases hrun
        case cons g fs =>
          obtain ⟨hsame, hrest⟩ := h db' hf
          have hc : ({ w with db := db' } : World F).committed = db' := committed_eq hs
          have hrun := (ih (w := { w with db := db' }) hm hs).mpr hrest φ' e w' hrun
          rw [hc] at hrun
          rw [committed_eq hs]
          exact hsame.trans hrun

end Writes

end Conn
