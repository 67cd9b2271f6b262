import CodeRag.Storage.Theorems.Rewrite
import CodeRag.Storage.Theorems.Tidy

-- Transactions in a session without faults: they take effect, or they leave no trace.

namespace World

variable {F : Floats}

-- Only the tables and the faults to come may have changed.
def tabular : Rely (World F) where
  rel w w' := ∃ db f, w' = { w with db := db, faults := f }
  refl w   := ⟨w.db, w.faults, rfl⟩
  trans    := by
    rintro _ _ _ ⟨_, _, rfl⟩ ⟨db, f, rfl⟩
    exact ⟨db, f, rfl⟩

end World

namespace Conn

open EStateM World

variable {F : Floats} {w : World F} {body : Conn F Unit} {old new : String} {paths : List String}

theorem execute_tabular {f : Db F → Except Exn (Db F)} : (execute f).Within tabular := by
  intro w
  have h : (execute f).post _ w := execute_post
  obtain ⟨⟨fs, hw⟩, _⟩ | ⟨db, fs, _, _, hw, _⟩ := h
  case inl => exact ⟨w.db, fs, hw⟩
  case inr => exact ⟨db, fs, hw⟩

theorem select_tabular {α : Type} {f : Db F → α} : (select f).Within tabular := by
  intro w
  have ⟨fs, hw⟩ := (select_post : (select f).post _ w).left
  exact ⟨w.db, fs, hw⟩

theorem transaction_of_faultFree (hf : w.FaultFree) (hs : w.saved = none) (hb : Built body)
    (ht : body.Within tabular) :
    (∃ db, body { w with saved := some w.db } = .ok () { w with db := db, saved := some w.db } ∧
      transaction body w = .ok () { w with db := db }) ∨ ∃ e, transaction body w = .error e w := by
  let w₁ : World F := { w with saved := some w.db }
  have hbegin : beginTransaction w = .ok () w₁ := by
    rw [beginTransaction, statement_of_faultFree hf, hs]
  obtain ⟨db, fs, hw⟩ := ht w₁
  have hfs : fs = w.faults := by
    have hl : FaultFree _ := FaultFree.later (w := w₁) hf (hb.later w₁)
    rw [hw] at hl
    exact hl.trans (Eq.symm hf)
  subst hfs
  have hf₂ : FaultFree { w₁ with db := db } := hf
  unfold transaction
  rw [bind_of_ok hbegin]
  cases hx : body w₁ <;> rw [hx] at hw <;> cases hw
  case ok =>
    refine .inl ⟨db, rfl, tryCatch_of_ok ((bind_of_ok hx).trans ?_)⟩
    rw [commit, statement_of_faultFree hf₂, ←hs]
  case error e =>
    refine .inr ⟨e, (tryCatch_of_error (bind_of_error hx)).trans ?_⟩
    have hrollback : rollback { w₁ with db := db } = .ok () w := by
      rw [rollback, statement_of_faultFree hf₂, ←hs]
    exact bind_of_ok hrollback

-- What all statements of a transaction do to the tables is what the transaction does to them.
theorem transaction_rel {T : Rely (Db F)} (hf : w.FaultFree) (hs : w.saved = none) (hb : Built body)
    (ht : body.Within tabular) (hT : body.Within (T.comap World.db)) :
    ∃ db, T w.db db ∧ (transaction body w).state = { w with db := db } := by
  obtain ⟨db, hx, h⟩ | ⟨e, h⟩ := transaction_of_faultFree hf hs hb ht
  case inl =>
    have hdb : T _ _ := hT { w with saved := some w.db }
    rw [hx] at hdb
    exact ⟨db, hdb, by rw [h]; rfl⟩
  case inr => exact ⟨w.db, T.refl _, by rw [h]; rfl⟩

theorem execute_rel {T : Rely (Db F)} {f : Db F → Except Exn (Db F)}
    (h : ∀ db db', f db = .ok db' → T db db') : (execute f).Within (T.comap World.db) := by
  intro w
  have hx : (execute f).post _ w := execute_post
  obtain ⟨⟨fs, hw⟩, _⟩ | ⟨db, fs, hf, _, hw, _⟩ := hx
  case inl => exact hw ▸ T.refl w.db
  case inr =>
    show T w.db _
    rw [hw]
    exact h _ _ hf

theorem select_rel {α : Type} {T : Rely (Db F)} {f : Db F → α} :
    (select f).Within (T.comap World.db) := by
  intro w
  have ⟨fs, hw⟩ := (select_post : (select f).post _ w).left
  exact hw ▸ T.refl w.db

theorem rewritePathPrefix_tabular {b : Bool} :
    (rewritePathPrefix (F := F) old new b).Within tabular := by
  refine .bind execute_tabular fun _ => .bind ?_ fun _ => execute_tabular
  split
  case isTrue  => exact execute_tabular
  case isFalse => exact .pure

-- A path is rewritten unless its rows get in conflict with others.
theorem commitRewrittenPath_cases (hf : w.FaultFree) (hs : w.saved = none) :
    (∃ db, w.db.RewritesTo old new db ∧ commitRewrittenPath old new w = .ok () { w with db := db }) ∨
      (w.mode = .readWrite → ∀ db, ¬w.db.RewritesTo old new db) ∧
        ∃ e, commitRewrittenPath old new w = .error e w := by
  obtain ⟨db, _, hx⟩ | ⟨e, hx⟩ := transaction_of_faultFree hf hs
    (.bind select_built fun _ => rewritePathPrefix_built)
    (.bind select_tabular fun _ => rewritePathPrefix_tabular)
  case inl =>
    have hp : (commitRewrittenPath old new).post _ w := commitRewrittenPath_post
    rw [EStateM.post, show commitRewrittenPath old new w = _ from hx] at hp
    exact .inl ⟨db, (hp.right rfl).right.right.right, hx⟩
  case inr =>
    refine .inr ⟨fun hm db hr => ?_, e, hx⟩
    have hok := commitRewrittenPath_of_faultFree hf hs hm hr
    rw [show commitRewrittenPath old new w = _ from hx] at hok
    cases hok

theorem deletePath_tabular {b : Bool} {stored : String} :
    (deletePath (F := F) b stored).Within tabular := by
  refine .bind ?_ fun _ => .bind execute_tabular fun _ => execute_tabular
  split
  case isTrue  => exact execute_tabular
  case isFalse => exact .pure

theorem deleteAbsolutePaths_cases (hf : w.FaultFree) (hs : w.saved = none) :
    (∃ db, w.db.Drop paths db ∧ deleteAbsolutePaths paths w = .ok () { w with db := db }) ∨
      ∃ e, deleteAbsolutePaths paths w = .error e w := by
  obtain ⟨db, _, hx⟩ | ⟨e, hx⟩ := transaction_of_faultFree hf hs
    (.bind select_built fun _ => .forM (fun _ => deletePath_built) paths)
    (.bind select_tabular fun b => .forM (fun _ => deletePath_tabular (b := b)) paths)
  case inl =>
    have hp : (deleteAbsolutePaths paths).post _ w := deleteAbsolutePaths_post
    rw [EStateM.post, show deleteAbsolutePaths paths w = _ from hx] at hp
    exact .inl ⟨db, (hp.right rfl).right.right, hx⟩
  case inr => exact .inr ⟨e, hx⟩

theorem deletePath_ok {b : Bool} (stored : String) (hf : w.FaultFree) (hm : w.mode = .readWrite)
    (hb : b → w.db.embeddings.isSome) : ∃ db, deletePath b stored w = .ok () { w with db := db } ∧
      (b → db.embeddings.isSome) := by
  let atPath := fun u : UnitRow => decide (u.path = stored)
  obtain ⟨db₁, h₁, hb₁⟩ : ∃ db₁ : Db F, (if b then deleteVectors (·.unitIdWhere atPath) else pure ()) w =
      .ok () { w with db := db₁ } ∧ (b → db₁.embeddings.isSome) := by
    cases b
    case false => exact ⟨w.db, rfl, hb⟩
    case true  =>
      refine ⟨w.db.deleteVectors (w.db.unitIdWhere atPath), ?_, fun _ => ?_⟩
      · rw [if_pos rfl, deleteVectors, execute_of_faultFree hf hm, if_pos (hb rfl)]
      · simpa [Db.deleteVectors] using hb rfl
  let db₂ := db₁.deleteRelations fun r => db₁.unitIdWhere atPath r.fromId || db₁.unitIdWhere atPath r.toId
  refine ⟨db₂.deleteUnits atPath, (bind_of_ok h₁).trans ?_, hb₁⟩
  have h₂ := execute_of_faultFree (w := { w with db := db₁ }) hf hm (f := fun db => .ok <|
    db.deleteRelations fun r => db.unitIdWhere atPath r.fromId || db.unitIdWhere atPath r.toId)
  exact (bind_of_ok h₂).trans (execute_of_faultFree (w := { w with db := db₂ }) hf hm)

theorem deleteAbsolutePaths_of_faultFree (hf : w.FaultFree) (hs : w.saved = none)
    (hm : w.mode = .readWrite) :
    ∃ db, w.db.Drop paths db ∧ deleteAbsolutePaths paths w = .ok () { w with db := db } := by
  have hbody : ∀ w : World F, w.FaultFree → w.mode = .readWrite → ∀ b : Bool,
      (b → w.db.embeddings.isSome) → ∃ db, paths.forM (deletePath b) w = .ok () { w with db := db } := by
    clear hf hs hm
    induction paths
    case nil => exact fun w _ _ _ _ => ⟨w.db, rfl⟩
    case cons stored paths ih =>
      intro w hf hm b hb
      obtain ⟨db, h, hb'⟩ := deletePath_ok stored hf hm hb
      obtain ⟨db', h'⟩ := ih { w with db := db } hf hm b hb'
      exact ⟨db', (bind_of_ok h).trans h'⟩
  let w₁ : World F := { w with saved := some w.db }
  obtain ⟨db, h⟩ := hbody w₁ hf hm w.db.embeddings.isSome id
  have hok : (do paths.forM (deletePath (← embeddingsTableExists))) w₁ =
      .ok () { w₁ with db := db } := by
    rw [bind_of_ok (embeddingsTableExists_of_faultFree (w := w₁) hf)]
    exact h
  obtain ⟨db', hd, hx⟩ | ⟨e, hx⟩ :=
    (deleteAbsolutePaths_cases hf hs : _ ∨ ∃ e, deleteAbsolutePaths paths w = .error e w)
  case inl => exact ⟨db', hd, hx⟩
  case inr =>
    have hbegin : beginTransaction w = .ok () w₁ := by
      rw [beginTransaction, statement_of_faultFree hf, hs]
    have hcommit : commit { w₁ with db := db } = .ok () { w with db := db } := by
      rw [commit, statement_of_faultFree (w := { w₁ with db := db }) hf, ←hs]
    unfold deleteAbsolutePaths transaction at hx
    rw [bind_of_ok hbegin, tryCatch_of_ok ((bind_of_ok hok).trans hcommit)] at hx
    cases hx

end Conn
