import CodeRag.Services.Theorems.Project
import CodeRag.Services.Theorems.Sample

-- What happens to the stored units of a file that cannot be read or parsed.

namespace Db

open Conn (isStale)

variable {F : Floats} {db db' db'' : Db F} {path m : String}

-- What is stored for a path is the same: its rows, and the vectors and relations of these.
structure SameAt (path : String) (db db' : Db F) : Prop where
  units     : ∀ u, u.path = path → (u ∈ db'.units ↔ u ∈ db.units)
  vec       : ∀ u ∈ db.units, u.path = path → db'.vec? u.id = db.vec? u.id
  relations : ∀ u ∈ db.units, u.path = path → ∀ r : Relation, r.fromId = u.id →
    (r ∈ db'.relations ↔ r ∈ db.relations)

namespace SameAt

theorem refl : db.SameAt path db where
  units _ _         := .rfl
  vec _ _ _         := rfl
  relations _ _ _ _ _ := .rfl

theorem trans (h : db.SameAt path db') (h' : db'.SameAt path db'') : db.SameAt path db'' where
  units u hu         := (h'.units u hu).trans (h.units u hu)
  vec u hm hu        := (h'.vec u ((h.units u hu).mpr hm) hu).trans (h.vec u hm hu)
  relations u hm hu r hr :=
    (h'.relations u ((h.units u hu).mpr hm) hu r hr).trans (h.relations u hm hu r hr)

theorem of_binds (h : db.Binds m db') : db.SameAt path db' where
  units _ _         := by rw [h.units]
  vec _ _ _         := h.vec?
  relations _ _ _ _ _ := by rw [h.relations]

-- Storing a unit of another path under an id of its own.
theorem of_stores {u : UnitRow} {vector : Option (List F)} (h : db.Stores u vector [] db')
    (hp : u.path ≠ path) (hi : ∀ row ∈ db.units, row.path = path → row.id ≠ u.id) :
    db.SameAt path db' where
  units row hrow := by
    obtain hu | hu := h.units <;> rw [hu]
    rw [Table.mem_insert, key_unitRow, key_unitRow]
    constructor
    case mp =>
      rintro (rfl | ⟨hm, _⟩)
      · exact absurd hrow hp
      · exact hm
    case mpr => exact fun hm => .inr ⟨hm, hi row hm hrow⟩
  vec row hm hrow := by
    obtain hv | ⟨_, v, _, hv⟩ := h.vec
    case inl => exact hv _
    case inr => rw [hv, if_neg (hi row hm hrow)]
  relations _ _ _ r _ := ⟨fun hr => (h.relations r hr).resolve_right nofun, h.kept r⟩

-- Deleting stale units of another path.
theorem of_deletes {identity : String} {ids : List String}
    (h : db.Deletes (isStale identity ids) db') (hp : identity ≠ path) : db.SameAt path db' := by
  have hs : ∀ row : UnitRow, row.path = path → isStale identity ids row = false := by
    intro row hrow
    simp [isStale, hrow, hp.symm]
  have hw : ∀ row ∈ db.units, row.path = path → db.unitIdWhere (isStale identity ids) row.id = false := by
    intro row hm hrow
    rw [unitIdWhere, ←key_unitRow, Table.find?_of_mem hm]
    exact hs row hrow
  refine ⟨fun row hrow => ?_, fun row hm hrow => ?_, fun row hm hrow r hr => ?_⟩
  · obtain hu | ⟨hu, _⟩ := h.units <;> rw [hu]
    simp [hs row hrow]
  · exact (h.vec row.id).resolve_right fun hn => by simp [hw row hm hrow] at hn
  · exact ⟨h.relations r, fun hm' => h.kept r hm' (hr ▸ hw row hm hrow)⟩

end SameAt
end Db

namespace IndexStack

open Conn Coroutine World

variable {F : Floats} {stack : IndexStack F} {force indexAll : Bool} {path : String}
variable {stored : Option String} {e : Exn} {w₀ s s' : World F}

-- The sync of `other` stores nothing for `identity` and gives no unit the id of a unit stored there.
def Elsewhere (stack : IndexStack F) (db : Db F) (identity other : String) : Prop :=
  ∀ stored units, stack.parsesAt other stored units → stored.getD other ≠ identity ∧
    ∀ u ∈ units, ∀ row ∈ db.units, row.path = identity → row.id ≠ u.id

theorem Elsewhere.congr {db db' : Db F} {identity other : String} (h : stack.Elsewhere db identity other)
    (hs : db.SameAt identity db') : stack.Elsewhere db' identity other := by
  intro stored units hp
  have ⟨hi, hu⟩ := h stored units hp
  exact ⟨hi, fun u hm row hr hrow => hu u hm row ((hs.units row hrow).mp hr) hrow⟩

-- A session in which what is stored for a path is as it was.
structure Kept (embedder : Embedder F) (identity : String) (w₀ w : World F) : Prop
    extends w₀.Working embedder w where
  same : w₀.db.SameAt identity w.db

private theorem kept_of_db {identity : String} (h : Kept stack.embedder identity w₀ s)
    (hw : w₀.Working stack.embedder s') (hs : s.db.SameAt identity s'.db) :
    Kept stack.embedder identity w₀ s' :=
  ⟨hw, h.same.trans hs⟩

theorem maintains_kept {identity : String} {units : List KnowledgeUnit} (h₀ : w₀.Ready)
    (h : stack.Elsewhere w₀.db identity path) (hp : stack.parsesAt path stored units) :
    Maintains (Kept stack.embedder identity w₀) stack units (stored.getD path) where
  get i s hs          := by
    obtain ⟨f, hw⟩ := (getUnit_post (i := i) (w := s)).left
    exact kept_of_db hs hs.getUnit (by rw [hw]; exact .refl)
  distill _ _ _ s hs  := kept_of_db hs (working_distill hs.toWorking) (by
    rw [distillUnitSummary_eq]
    exact .refl)
  has i s hs          := kept_of_db hs (hs.hasEmbedding h₀) (.of_binds hasEmbedding_post.left.db)
  ensure s hs         := kept_of_db hs (hs.toWorking.ensure h₀) (.of_binds ensureEmbeddingsBound_post.left.db)
  embed texts s hs    := by
    obtain ⟨f, hw⟩ := (aembed_post : (aembed stack.embedder texts).post _ s).left
    exact kept_of_db hs hs.aembed (by rw [hw]; exact .refl)
  upsert u hu o v s hs := by
    obtain ⟨w₁, hx⟩ := (upsertUnit_post :
      (upsertUnit stack.embedder (withSummary u o) v).post _ s)
    have hpar := MultiParser.parsed_of_distillFile hp.right u hu
    have ⟨hi, hids⟩ := h.congr hs.same stored units hp
    have hst : w₁.db.Stores (withSummary u o).toUnitRow v [] _ := hpar.relations ▸ hx.stores
    refine kept_of_db hs (hs.upsertUnit h₀) (.trans (.of_binds hx.binds.db) (.of_stores hst ?_ ?_))
    · exact fun he => hi (hpar.path.symm.trans he)
    · exact fun row hm hrow => hids u hu row (hx.binds.db.units ▸ hm) hrow
  delete s hs         := by
    obtain ⟨w₁, f, _, hb, _, hd, _⟩ := (deleteStaleUnits_post :
      (deleteStaleUnits stack.embedder (stored.getD path) (units.map (·.id))).post _ s)
    exact kept_of_db hs (hs.deleteStaleUnits h₀)
      (.trans (.of_binds hb.db) (.of_deletes hd (h stored units hp).left))

-- The deletion of all units of a path does not start when the embedder cannot be bound.
private theorem delete_fails {identity : String} (h₀ : w₀.Ready) (hb : ¬Bindable stack.embedder w₀)
    (hs : w₀.Working stack.embedder s) :
    (deleteStaleUnits stack.embedder identity [] s).outcome ≠ .ok () ∧
      (deleteStaleUnits stack.embedder identity [] s).state =
        (ensureEmbeddingsBound stack.embedder s).state := by
  rw [ne_eq, deleteStaleUnits_ok_iff hs.toUsable, hs.bindable_iff h₀]
  refine ⟨hb, ?_⟩
  cases hx : ensureEmbeddingsBound stack.embedder s
  case error => rw [deleteStaleUnits, EStateM.bind_of_error hx]
  case ok t =>
    refine absurd ?_ hb
    rw [←hs.bindable_iff h₀, ←ensure_ok_iff hs.toReady, hx]
    rfl

private theorem kept_delete {identity : String} (h₀ : w₀.Ready) (hb : ¬Bindable stack.embedder w₀)
    (hs : Kept stack.embedder identity w₀ s) :
    Kept stack.embedder identity w₀ (deleteStaleUnits stack.embedder identity [] s).state := by
  rw [(delete_fails h₀ hb hs.toWorking).right]
  exact kept_of_db hs (hs.toWorking.ensure h₀) (.of_binds ensureEmbeddingsBound_post.left.db)

-- The sync of the file raises when the grammar is missing or the deletion of its units fails.
private theorem wp_syncPath_raises {I : World F → Prop} (force : Bool) (hr : stack.parser.Raises path stored e)
    (hst : stack.storedPath path = .ok stored) (hs : I s) (clean : ∀ t, I t → t.dirty = false)
    (hc : e.IsGrammarNotFound ∨ ∀ t, I t →
      I (deleteStaleUnits stack.embedder (stored.getD path) [] t).state ∧
        (deleteStaleUnits stack.embedder (stored.getD path) [] t).outcome ≠ .ok ()) :
    (stack.syncPath force path).wp (.keeps I) (fun s s' => I s → I s')
      (fun r s' => I s' ∧ r ≠ .ok ()) s := by
  refine wp_syncPath (fun _ => id) (fun s' hr' _ => ⟨hr' hs, nofun⟩) fun stored' units hp => ?_
  obtain rfl : stored = stored' := Except.ok.inj (hst.symm.trans hp.left)
  have hx := MultiParser.distillFile_of_raises false hr
  rw [hp.right] at hx
  split at hx
  case isTrue => cases hx
  case isFalse hn =>
    cases hx
    exact wp_syncFile_nil hp.right hs clean (hc.resolve_left fun hg => hn (.inl hg))

-- Otherwise the file is synced as one without units.
private theorem wp_syncPath_returns (force : Bool) (h₀ : w₀.Ready) (hr : stack.parser.Raises path stored e)
    (hst : stack.storedPath path = .ok stored) (hd : w₀.dirty = false)
    (hg : ¬e.IsGrammarNotFound) (hb : Bindable stack.embedder w₀)
    (hs : w₀.Working stack.embedder s) :
    (stack.syncPath force path).wp (.keeps (w₀.Working stack.embedder))
      (fun s s' => w₀.Working stack.embedder s → w₀.Working stack.embedder s')
      (fun r s' => w₀.Working stack.embedder s' ∧ r = .ok ()) s := by
  unfold syncPath
  rw [hst]
  have hx := MultiParser.distillFile_of_raises false hr
  rw [if_neg (by simpa using hg)] at hx
  show wp _ _ (stack.syncFile force path stored) _ _
  refine wp_syncFile_nil hx hs (fun t ht => ht.dirty.trans hd) fun t ht => ⟨ht.deleteStaleUnits h₀, ?_⟩
  exact (deleteStaleUnits_ok_iff ht.toUsable).mpr ((ht.bindable_iff h₀).mpr hb)

section Project

variable {paths : List String} {n : Nat} {failures : List (String × Exn)}

-- A failure is reported exactly when the grammar is missing or the deletion of the units fails.
theorem reported_iff (h₀ : w₀.Usable) (hd : w₀.dirty = false) (hr : stack.parser.Raises path stored e)
    (hst : stack.storedPath path = .ok stored) (hm : path ∈ paths) (hn : 0 < n)
    (h : Pool.Outcome (stack.syncPath force) paths n w₀ failures s') :
    (∃ e', (path, e') ∈ failures) ↔ e.IsGrammarNotFound ∨ ¬Bindable stack.embedder w₀ := by
  obtain ⟨c, hsteps, hfinal, rfl, rfl⟩ := h
  simp only [Pool.mem_failures_iff hsteps]
  constructor
  case mpr =>
    intro hc
    have hbody := wp_syncPath_raises (I := w₀.Working stack.embedder) force hr hst
      h₀.working (fun t ht => ht.dirty.trans hd) <| hc.imp_right fun hb t ht =>
        ⟨ht.deleteStaleUnits h₀.toReady, (delete_fails h₀.toReady hb ht).left⟩
    obtain ⟨r, hret⟩ := Pool.exists_returned (fun _ => hn) hsteps hfinal hm
    have hne := (outcome_of_maintains hn h₀.working
      (fun _ _ _ _ _ _ => maintains_working h₀.toReady) hbody hsteps hfinal).right r hret
    cases r
    case ok    => exact absurd rfl hne
    case error => exact ⟨_, hret⟩
  case mp =>
    rintro ⟨e', he'⟩
    by_contra hc
    rw [not_or, not_not] at hc
    have hbody := wp_syncPath_returns force h₀.toReady hr hst hd hc.left hc.right h₀.working
    have := (outcome_of_maintains hn h₀.working
      (fun _ _ _ _ _ _ => maintains_working h₀.toReady) hbody hsteps hfinal).right _ he'
    cases this

-- In that case nothing that is stored for the file changes.
theorem sameAt_of_reported (h₀ : w₀.Usable) (hd : w₀.dirty = false)
    (hr : stack.parser.Raises path stored e) (hst : stack.storedPath path = .ok stored) (hn : 0 < n)
    (others : ∀ p ∈ paths, p ≠ path → stack.Elsewhere w₀.db (stored.getD path) p)
    (hc : e.IsGrammarNotFound ∨ ¬Bindable stack.embedder w₀)
    (h : Pool.Outcome (stack.syncPath force) paths n w₀ failures s') :
    w₀.db.SameAt (stored.getD path) s'.db := by
  obtain ⟨c, hsteps, hfinal, rfl, rfl⟩ := h
  have hk : Kept stack.embedder (stored.getD path) w₀ w₀ := ⟨h₀.working, .refl⟩
  have hbody := wp_syncPath_raises (I := Kept stack.embedder (stored.getD path) w₀) force hr hst hk (fun t ht => ht.dirty.trans hd) <| hc.imp_right fun hb t ht =>
      ⟨kept_delete h₀.toReady hb ht, (delete_fails h₀.toReady hb ht.toWorking).left⟩
  exact (outcome_of_maintains hn hk
    (fun p hp hne _ _ hpar => maintains_kept h₀.toReady (others p hp hne) hpar) hbody hsteps
    hfinal).left.same

end Project

private theorem run_syncFile_nil (h : stack.parser.distillFile path stored false = .ok []) :
    (stack.syncFile force path stored).run s =
      if s.dirty then .error dirtyError s
      else deleteStaleUnits stack.embedder (stored.getD path) [] s := by
  unfold syncFile
  rw [run_bind, run_call]
  cases hd : s.dirty
  case true  =>
    exact EStateM.bind_of_error (by simp [rejectDirtyIncremental, hd])
  case false =>
    rw [EStateM.bind_of_ok (show rejectDirtyIncremental s = .ok () s by
      simp [rejectDirtyIncremental, hd]), h]
    exact congrFun run_call s

-- The sync of the file alone.
theorem sameAt_syncFile_iff (h₀ : s.Usable) (hr : stack.parser.Raises path stored e) :
    s.db.SameAt (stored.getD path) ((stack.syncFile force path stored).run s).state.db ↔
      e.IsGrammarNotFound ∨ s.dirty ∨ ¬Bindable stack.embedder s ∨
        ∀ u ∈ s.db.units, u.path ≠ stored.getD path := by
  have hx := MultiParser.distillFile_of_raises false hr
  by_cases hg : e.IsGrammarNotFound
  case pos =>
    rw [if_pos (.inl hg)] at hx
    have ⟨h, _⟩ := wp_run <| wp_syncFile_of_error (R := .still) (G := fun s s' => s' = s) (s := s)
      force hx fun _ => rfl
    rw [show ((stack.syncFile force path stored).run s).state = s from h]
    exact ⟨fun _ => .inl hg, fun _ => .refl⟩
  rw [if_neg (by simpa using hg)] at hx
  rw [run_syncFile_nil hx]
  cases hd : s.dirty
  case true => exact ⟨fun _ => .inr (.inl rfl), fun _ => .refl⟩
  simp only [hg, Bool.false_eq_true, if_false, false_or]
  obtain ⟨w₁, f, _, hb, _, hdel, hok⟩ := (deleteStaleUnits_post :
    (deleteStaleUnits stack.embedder (stored.getD path) []).post _ s)
  constructor
  case mp =>
    intro hs
    by_contra hc
    rw [not_or, not_not] at hc
    obtain ⟨hbind, hrows⟩ := hc
    push Not at hrows
    obtain ⟨u, hu, hp⟩ := hrows
    have hu' := (hs.units u hp).mpr hu
    rw [hok ((deleteStaleUnits_ok_iff h₀).mpr hbind), Table.mem_delete] at hu'
    simp [isStale, hp] at hu'
  case mpr =>
    rintro (hbind | hrows)
    case inl =>
      rw [(delete_fails h₀.toReady hbind h₀.working).right]
      exact .of_binds ensureEmbeddingsBound_post.left.db
    case inr =>
      refine ⟨fun u hp => ?_, fun u hu hp => absurd hp (hrows u hu),
        fun u hu hp => absurd hp (hrows u hu)⟩
      refine ⟨fun hu => ?_, fun hu => absurd hp (hrows u hu)⟩
      obtain hs | ⟨hs, _⟩ := hdel.units <;> rw [hs, hb.db.units] at hu
      · exact hu
      · exact (Table.mem_delete.mp hu).left

-- When a file cannot be read or parsed, its stored units survive if and only if the grammar is missing
-- or its units cannot be deleted. `w₀` is the state in which the workers start, after a re-embedding
-- of all units when the model has changed.
theorem parseFailure_iff (force indexAll : Bool) (hs : s.Usable) (hr : stack.parser.Raises path stored e) :
    (s.db.SameAt (stored.getD path) ((stack.syncFile force path stored).run s).state.db ↔
      e.IsGrammarNotFound ∨ s.dirty ∨ ¬Bindable stack.embedder s ∨
        ∀ u ∈ s.db.units, u.path ≠ stored.getD path) ∧
    ∀ paths n failures w₀ s', stack.storedPath path = .ok stored → path ∈ paths → 0 < n →
      stack.reembedIfDirty indexAll s = .ok () w₀ →
      stack.SyncProject paths force indexAll n s (.ok failures) s' →
      ((∃ m, (path, m) ∈ failures) ↔ e.IsGrammarNotFound ∨ ¬Bindable stack.embedder w₀) ∧
        ((∀ p ∈ paths, p ≠ path → stack.Elsewhere w₀.db (stored.getD path) p) →
          ((∃ m, (path, m) ∈ failures) ∧ w₀.db.SameAt (stored.getD path) s'.db ↔
            e.IsGrammarNotFound ∨ ¬Bindable stack.embedder w₀)) := by
  refine ⟨sameAt_syncFile_iff hs hr, fun paths n failures w₀ s' hst hm hn hre hp => ?_⟩
  have ⟨h₀, hd⟩ := usable_of_reembedIfDirty hs hre
  cases hp
  case returned w₁ fs hre' hout =>
    obtain rfl : w₁ = w₀ := by
      rw [hre] at hre'
      cases hre'
      rfl
    have hn' : 0 < workerCount paths n := by
      have := List.length_pos_of_mem hm
      unfold workerCount
      omega
    have hiff : (∃ m, (path, m) ∈ fs.map reportWorkerFailure) ↔
        e.IsGrammarNotFound ∨ ¬Bindable stack.embedder w₁ := by
      rw [←reported_iff h₀ hd hr hst hm hn' hout]
      constructor
      case mp  =>
        rintro ⟨m, hm⟩
        obtain ⟨⟨p, e'⟩, hf, he⟩ := List.mem_map.mp hm
        cases he
        exact ⟨e', hf⟩
      case mpr => exact fun ⟨e', hf⟩ => ⟨e'.message, List.mem_map.mpr ⟨_, hf, rfl⟩⟩
    refine ⟨hiff, fun others => ⟨fun h => hiff.mp h.left, fun hc => ⟨hiff.mpr hc, ?_⟩⟩⟩
    exact sameAt_of_reported h₀ hd hr hst hn' others hc hout

section Sample

private def file (content : String) : IndexStack naturals :=
  Sample.stack "m" [("/r/a.py", content)] "" (some "/r")

private def unparsed : IndexStack naturals :=
  { file "f=1" with parser := { (file "f=1").parser with
    runtime := { Sample.runtime with loadGrammar := fun _ => .error .importError } } }

private def stored₁ : World naturals :=
  (((file "f=1").syncFile false "/r/a.py" (some "a.py")).run
    (.opened (Sample.embedder "m") .empty false none noFaults)).state

private theorem usable_stored₁ : stored₁.Usable :=
  usable_syncFile usable_opened

private theorem mem_stored₁ : ∃ u ∈ stored₁.db.units, u.path = "a.py" := by
  have h : (stored₁.db.units.find? "a.py:f").map (·.path) = some "a.py" := by decide +kernel
  obtain ⟨u, hu, hp⟩ := Option.map_eq_some_iff.mp h
  exact ⟨u, Table.mem_of_find? hu, hp⟩

private theorem raises_unreadable :
    (file "!").parser.Raises "/r/a.py" (some "a.py") (.other "Permission denied") :=
  ⟨rfl, _, rfl, rfl⟩

-- A file that cannot be read loses its units, and one without a grammar does not.
theorem parseFailure_iff_sample :
    ¬stored₁.db.SameAt "a.py"
      (((file "!").syncFile false "/r/a.py" (some "a.py")).run stored₁).state.db ∧
    ∃ failures s', unparsed.SyncProject ["/r/a.py"] false true 1 stored₁ (.ok failures) s' ∧
      (∃ m, ("/r/a.py", m) ∈ failures) ∧ stored₁.db.SameAt "a.py" s'.db := by
  constructor
  case left =>
    have h := (parseFailure_iff false true usable_stored₁
      raises_unreadable).left
    rw [Option.getD_some] at h
    rw [h]
    have hd : stored₁.dirty = false := by decide +kernel
    have hbound : stored₁.bound = true := by decide +kernel
    have ⟨u, hu, hp⟩ := mem_stored₁
    rintro (hg | hd' | hb | hrows)
    · exact hg
    · exact absurd (hd.symm.trans hd') Bool.false_ne_true
    · exact hb (.inl hbound)
    · exact hrows u hu hp
  case right =>
    have hm : unparsed.parser.Raises "/r/a.py" (some "a.py") (.grammarNotFound
        "[MISSING DEPENDENCY] Please install: pip install tree_sitter_python") := ⟨rfl, _, rfl, rfl⟩
    have hd : stored₁.dirty = false := by decide +kernel
    have hu := usable_stored₁
    generalize stored₁ = w at hd hu ⊢
    have hre : unparsed.reembedIfDirty true w = .ok () w := reembedIfDirty_of_clean hd
    have hp : unparsed.SyncProject ["/r/a.py"] false true 1 w (.ok _) _ :=
      .returned hre Pool.sequential_outcome
    have h := (parseFailure_iff false true hu hm).right
      ["/r/a.py"] 1 _ w _ rfl (.head _) Nat.one_pos hre hp
    exact ⟨_, _, hp, (h.right fun p hp hne => absurd (List.mem_singleton.mp hp) hne).mpr (.inl trivial)⟩

-- An exception while a file is parsed that is not a missing grammar deletes its units.
theorem not_sameAt_of_raises : ¬∀ (stack : IndexStack naturals) (s : World naturals) (force : Bool) (path : String)
    (stored : Option String) (e : Exn), s.Usable → stack.parser.Raises path stored e →
      s.db.SameAt (stored.getD path) ((stack.syncFile force path stored).run s).state.db := by
  intro h
  have hs := h (file "!") stored₁ false "/r/a.py" (some "a.py") _ usable_stored₁ raises_unreadable
  have ⟨u, hu, hp⟩ := mem_stored₁
  have hm := (hs.units u hp).mpr hu
  have hn : (((file "!").syncFile false "/r/a.py" (some "a.py")).run stored₁).state.db.units.rows.length
      = 0 := by decide +kernel
  rw [←Table.mem_rows, List.length_eq_zero_iff.mp hn] at hm
  exact absurd hm List.not_mem_nil

end Sample
end IndexStack
