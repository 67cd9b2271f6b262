import CodeRag.Services.Theorems.Requests

-- A property of the stored units that may depend on the calls of the models, through all that a session
-- does.

-- More calls do not cost a unit its property.
def Lasting (K : List Call → UnitRow → Prop) : Prop :=
  ∀ {made more u}, K made u → K (made ++ more) u

namespace World

variable {F : Floats} {w w' : World F} {start more : List Call} {K L : List Call → UnitRow → Prop}

-- All units have the property `K`, and those to which an open transaction rolls back have the property `L`.
-- Both may depend on the calls since `start`.
def Keeps (start : List Call) (K L : List Call → UnitRow → Prop) (w : World F) : Prop :=
  ∃ made, w.calls = start ++ made ∧ (∀ u ∈ w.db.units, K made u) ∧
    ∀ db ∈ w.saved, ∀ u ∈ db.units, L made u

-- No call is forgotten, and the properties are kept.
def keeping (start : List Call) (K L : List Call → UnitRow → Prop) : Rely (World F) where
  rel w w' := (∃ more, w'.calls = w.calls ++ more) ∧ (w.Keeps start K L → w'.Keeps start K L)
  refl w   := ⟨⟨[], (List.append_nil _).symm⟩, id⟩
  trans    := by
    rintro w₁ w₂ w₃ ⟨⟨more, hc⟩, hk⟩ ⟨⟨more', hc'⟩, hk'⟩
    exact ⟨⟨more ++ more', by rw [hc', hc, List.append_assoc]⟩, fun h => hk' (hk h)⟩

theorem keeping_of_calls (hL : Lasting L) (hc : w'.calls = w.calls ++ more)
    (hs : w'.saved = w.saved) (hu : ∀ made, w.calls = start ++ made → (∀ u ∈ w.db.units, K made u) →
      ∀ u ∈ w'.db.units, K (made ++ more) u) : keeping start K L w w' := by
  refine ⟨⟨more, hc⟩, fun ⟨made, hm, hdb, hsaved⟩ => ?_⟩
  refine ⟨made ++ more, by rw [hc, hm, List.append_assoc], hu made hm hdb, fun db hd u hu => ?_⟩
  exact hL (hsaved db (hs ▸ hd) u hu)

theorem keeping_of_units (hK : Lasting K) (hL : Lasting L) (hc : w'.calls = w.calls ++ more)
    (hs : w'.saved = w.saved) (hu : ∀ u ∈ w'.db.units, u ∈ w.db.units) : keeping start K L w w' :=
  keeping_of_calls hL hc hs fun _ _ h u hm => hK (h u (hu u hm))

theorem keeping_of_reads (hK : Lasting K) (hL : Lasting L) (h : w.Reads w') : keeping start K L w w' := by
  obtain ⟨f, rfl⟩ := h
  exact keeping_of_units hK hL (List.append_nil _).symm rfl fun _ => id

end World

namespace Conn

open EStateM World

variable {F : Floats} {w : World F} {embedder : Embedder F} {start : List Call}
variable {K L : List Call → UnitRow → Prop} {u : KnowledgeUnit} {vector : Option (List F)}
variable (hK : Lasting K) (hL : Lasting L)

include hK hL

theorem ensure_keeping : (ensureEmbeddingsBound embedder).Within (keeping start K L) := by
  intro w
  have hb : w.Binds embedder.modelId _ := ensureEmbeddingsBound_post.left
  obtain ⟨n, hc⟩ := hb.calls
  exact keeping_of_units hK hL hc hb.saved fun u hu => hb.db.units ▸ hu

theorem aembed_keeping {texts : List String} : (aembed embedder texts).Within (keeping start K L) := by
  intro w
  obtain ⟨f, hw⟩ := (aembed_post : (aembed embedder texts).post _ w).left
  rw [hw]
  exact keeping_of_units hK hL rfl rfl fun _ => id

theorem getUnit_keeping {i : String} : (getUnit i).Within (keeping (F := F) start K L) :=
  fun _ => keeping_of_reads hK hL getUnit_post.left

theorem hasEmbedding_keeping {i : String} : (hasEmbedding embedder i).Within (keeping start K L) :=
  .bind (ensure_keeping hK hL) fun _ _ => keeping_of_reads hK hL select_post.left

-- The unit that is stored has to have the property.
theorem upsertUnit_keeping (hu : ∀ made, w.calls = start ++ made → (∀ u ∈ w.db.units, K made u) →
    K made u.toUnitRow) : keeping start K L w (upsertUnit embedder u vector w).state := by
  obtain ⟨w₁, hx⟩ := (upsertUnit_post : (upsertUnit embedder u vector).post _ w)
  obtain ⟨f, hf⟩ := hx.frame
  obtain ⟨n, hc⟩ := hx.binds.calls
  refine keeping_of_calls hL (by rw [hf]; exact hc) (by rw [hf]; exact hx.binds.saved) ?_
  intro made hm h u' hu'
  refine hK ?_
  obtain he | he := hx.stores.units <;> rw [he, hx.binds.db.units] at hu'
  case inl => exact h u' hu'
  case inr =>
    obtain rfl | ⟨hu', _⟩ := Table.mem_insert.mp hu'
    · exact hu made hm h
    · exact h u' hu'

theorem deleteStaleUnits_keeping {path : String} {ids : List String} :
    (deleteStaleUnits embedder path ids).Within (keeping start K L) := by
  intro w
  obtain ⟨w₁, f, _, hb, hw, hd, _⟩ := (deleteStaleUnits_post : (deleteStaleUnits embedder path ids).post _ w)
  obtain ⟨n, hc⟩ := hb.calls
  refine keeping_of_units hK hL (by rw [hw]; exact hc) (by rw [hw]; exact hb.saved) fun u hu => ?_
  rw [←hb.db.units]
  obtain he | ⟨he, _⟩ := hd.units <;> rw [he] at hu
  case inl => exact hu
  case inr => exact (Table.mem_delete.mp hu).left

theorem execute_keeping {f : Db F → Except Exn (Db F)} (hf : ∀ db db', f db = .ok db' → ∀ made,
    (∀ u ∈ db.units, K made u) → ∀ u ∈ db'.units, K made u) : (execute f).Within (keeping start K L) := by
  intro w
  have hx : (execute f).post _ w := execute_post
  obtain ⟨hr, _⟩ | ⟨db, fs, hdb, _, he, _⟩ := hx
  case inl => exact keeping_of_reads hK hL hr
  case inr =>
    rw [he]
    refine keeping_of_calls hL (List.append_nil _).symm rfl fun made _ h u hu => ?_
    rw [List.append_nil]
    exact hf _ _ hdb made h u hu

-- A statement that stores no unit.
theorem execute_keeping_of_units {f : Db F → Except Exn (Db F)}
    (hf : ∀ db db', f db = .ok db' → ∀ u ∈ db'.units, u ∈ db.units) :
    (execute f).Within (keeping start K L) :=
  execute_keeping hK hL fun db db' hdb _ h u hu => h u (hf db db' hdb u hu)

theorem metaSet_keeping {k v : String} : (metaSet (F := F) k v).Within (keeping start K L) := by
  refine execute_keeping_of_units hK hL fun db db' hf u hu => ?_
  split at hf <;> cases hf
  exact hu

theorem setDependencyPath_keeping {lib path : String} :
    (setDependencyPath (F := F) lib path).Within (keeping start K L) := by
  refine execute_keeping_of_units hK hL fun db db' hf u hu => ?_
  cases hf
  exact hu

omit hK hL in
theorem modify_keeping {f : World F → World F}
    (h : ∀ w, (f w).calls = w.calls ∧ (f w).db = w.db ∧ (f w).saved = w.saved) :
    (modify f : Conn F Unit).Within (keeping start K L) := by
  intro w
  have ⟨hc, hd, hs⟩ := h w
  refine ⟨⟨[], hc.trans (List.append_nil _).symm⟩, fun ⟨made, hm, hk⟩ => ⟨made, hc.trans hm, ?_⟩⟩
  show (∀ u ∈ (f w).db.units, K made u) ∧ ∀ db ∈ (f w).saved, ∀ u ∈ db.units, L made u
  rw [hd, hs]
  exact hk

omit hL in
-- A transaction rolls back to units that have the property.
theorem transaction_keeping {body : Conn F Unit} (hb : body.Within (keeping start K K)) :
    (transaction body).Within (keeping start K K) := by
  have hstatement : ∀ {α : Type} {f : World F → EStateM.Result Exn (World F) α},
      (∀ w, keeping start K K w (f w).state) → (statement f).Within (keeping start K K) := by
    intro α f hf w
    unfold statement
    split
    case isTrue  => exact keeping_of_reads hK hK .tick
    case isFalse => exact (keeping start K K).trans (keeping_of_reads hK hK .tick) (hf w.tick)
  have hbegin : (beginTransaction (F := F)).Within (keeping start K K) := by
    refine hstatement fun w => ?_
    cases hs : w.saved
    case some => exact (keeping start K K).refl w
    case none =>
      refine ⟨⟨[], (List.append_nil _).symm⟩, fun ⟨made, hm, hdb, _⟩ => ⟨made, hm, hdb, fun db hd => ?_⟩⟩
      cases hd
      exact hdb
  have hcommit : (commit (F := F)).Within (keeping start K K) := hstatement fun w =>
    ⟨⟨[], (List.append_nil _).symm⟩, fun ⟨made, hm, hdb, _⟩ => ⟨made, hm, hdb, fun db hd => by cases hd⟩⟩
  have hrollback : (rollback (F := F)).Within (keeping start K K) := by
    refine hstatement fun w => ?_
    cases hs : w.saved
    case none => exact (keeping start K K).refl w
    case some =>
      refine ⟨⟨[], (List.append_nil _).symm⟩, fun ⟨made, hm, _, hsaved⟩ => ⟨made, hm, ?_, fun db hd => ?_⟩⟩
      · exact hsaved _ hs
      · cases hd
  exact .bind hbegin fun _ => .tryCatch (.bind hb fun _ => hcommit) fun _ => .bind hrollback fun _ => .throw

omit hL in
-- Renaming a unit has to keep the property.
theorem commitRewrittenPath_keeping {old new : String}
    (hr : ∀ made (u : UnitRow), K made u → K made (u.rewritePath old new)) :
    (commitRewrittenPath (F := F) old new).Within (keeping start K K) := by
  refine transaction_keeping hK (.bind (fun w => keeping_of_reads hK hK select_post.left) fun b => ?_)
  refine .bind (execute_keeping hK hK fun db db' hf made h u hu => ?_) fun _ => .bind ?_ fun _ => ?_
  · split at hf
    case h_2 => cases hf
    case h_1 units he =>
      cases hf
      obtain ⟨u', hu', rfl⟩ := (Table.mem_update he).mp hu
      exact hr made u' (h u' hu')
  · split
    case isFalse => exact .pure
    case isTrue  =>
      refine execute_keeping_of_units hK hK fun db db' hf u hu => ?_
      split at hf
      case h_1 => cases hf
      case h_2 => split at hf <;> cases hf; exact hu
  · refine execute_keeping_of_units hK hK fun db db' hf u hu => ?_
    split at hf <;> cases hf
    exact hu

omit hL in
theorem deleteAbsolutePaths_keeping {paths : List String} :
    (deleteAbsolutePaths (F := F) paths).Within (keeping start K K) := by
  refine transaction_keeping hK (.bind (fun w => keeping_of_reads hK hK select_post.left) fun b => ?_)
  refine .forM (fun stored => ?_) paths
  refine .bind ?_ fun _ => .bind ?_ fun _ => ?_
  · split
    case isFalse => exact .pure
    case isTrue  =>
      refine execute_keeping_of_units hK hK fun db db' hf u hu => ?_
      split at hf <;> cases hf
      exact hu
  · refine execute_keeping_of_units hK hK fun db db' hf u hu => ?_
    cases hf
    exact hu
  · refine execute_keeping_of_units hK hK fun db db' hf u hu => ?_
    cases hf
    exact (Table.mem_delete.mp hu).left

theorem openDbConnection_keeping {wipe : Bool} :
    (openDbConnection embedder wipe).Within (keeping start K L) := by
  have hsame : ∀ {f : Db F → Db F}, (∀ db, (f db).units = db.units) →
      (execute fun db => .ok (f db)).Within (keeping start K L) := by
    refine fun h => execute_keeping_of_units hK hL fun db db' hf u hu => ?_
    cases hf
    exact h db ▸ hu
  refine openDbConnection_within (fun _ _ => keeping_of_reads hK hL) (hsame fun _ => rfl)
    (.bind (hsame fun _ => rfl) fun _ => hsame fun _ => rfl) fun f hf => modify_keeping fun w => ?_
  have ⟨hc, hd, hs, _⟩ := hf w
  exact ⟨hc, hd, hs⟩

end Conn

namespace IndexStack

open Conn Coroutine World

variable {F : Floats} {w : World F} {embedder : Embedder F} {start : List Call}
variable {K L : List Call → UnitRow → Prop} {stack : IndexStack F}
variable (hK : Lasting K) (hL : Lasting L)

include hK hL

theorem distillUnitSummary_keeping {unit : KnowledgeUnit} {existing : Option KnowledgeUnit} {code : String} :
    (stack.distillUnitSummary unit existing code).Within (keeping start K L) := by
  intro w
  rw [distillUnitSummary_eq]
  exact keeping_of_units hK hL rfl rfl fun _ => id

-- The units that are embedded again had the property when they were listed.
theorem reembedAllUnits_keeping (hu : ∀ u ∈ w.db.units, K [] u) :
    keeping start K L w ((reembedAllUnits embedder).run w).state :=
  reembedAllUnits_rel (fun _ _ h _ => keeping_of_reads hK hL h) (ensure_keeping hK hL) (fun _ => aembed_keeping hK hL)
    (fun _ hm _ _ => upsertUnit_keeping hK hL fun _ _ _ => hK (hu _ hm))
    (.bind (metaSet_keeping hK hL) fun _ => modify_keeping fun _ => ⟨rfl, rfl, rfl⟩)

omit hL in
theorem migrateAbsolutePaths_keeping {parser : MultiParser} {root : String} {files : List String}
    (hr : ∀ old new made (u : UnitRow), K made u → K made (u.rewritePath old new)) :
    (PathMigration.migrateAbsolutePaths parser root files : Conn F Bool).Within (keeping start K K) :=
  fun _ => PathMigration.migrateAbsolutePaths_rel (fun _ _ h _ => keeping_of_reads hK hK h)
    (fun m _ => commitRewrittenPath_keeping hK (hr m.1 m.2)) (fun _ => deleteAbsolutePaths_keeping hK)
    (metaSet_keeping hK hK)

section Sync

variable {s₀ s : World F} {units : List KnowledgeUnit} {force : Bool} {parsed : KnowledgeUnit}
variable {existing : Option KnowledgeUnit} {summary : Option String} {hasVec : Bool}

-- The units of a file are stored with the property, when it holds in state `s₀`.
def Justified (stack : IndexStack F) (force : Bool) (units : List KnowledgeUnit) (start : List Call)
    (K L : List Call → UnitRow → Prop) (s₀ : World F) : Prop :=
  ∀ parsed ∈ units, ∀ existing summary hasVec s,
    stack.Prepared force s₀ (fun _ => keeping start K L) parsed existing summary hasVec s →
    ∀ made, s.calls = start ++ made → K made (withSummary parsed summary).toUnitRow

omit hK hL in
theorem Prepared.rel {S : Rely (World F)}
    (h : stack.Prepared force s₀ (fun _ => S) parsed existing summary hasVec s) : S s₀ s := by
  obtain ⟨h₀, _, h₁, _, h₁', h₂, _, h₃⟩ := h
  exact S.trans h₀ (S.trans h₁ (S.trans h₁' (S.trans h₂ h₃)))

omit hL in
-- Where the summary of a unit that is stored comes from: a call has returned it, the unit had it with the
-- same hash, or a call has raised.
theorem Prepared.summary_cases {made : List Call} (hs : s₀.Keeps start K L)
    (h : stack.Prepared force s₀ (fun _ => keeping start K L) parsed existing summary hasVec s)
    (hm : s.calls = start ++ made) :
    (∃ t, summary = some t ∧ .summarize parsed.rawCode parsed.name (some t) ∈ made) ∨
      (∃ e : UnitRow, e.id = parsed.id ∧ K made e ∧ e.summary = summary ∧ e.codeHash = parsed.codeHash) ∨
      .summarize parsed.rawCode parsed.name none ∈ made ∧
        (summary = none ∨ ∃ e : UnitRow, e.id = parsed.id ∧ K made e ∧ e.summary = summary) := by
  obtain ⟨h₀, ho, h₁, hsum, h₁', h₂, -, h₃⟩ := h
  rename_i t₀ t₁ t₁' t₂
  obtain ⟨m₀, hm₀, hrows, _⟩ := h₀.right hs
  have hrow := (getUnit_post : (getUnit parsed.id).post _ t₀).right existing ho
  -- The calls up to the state in which the unit is stored.
  obtain ⟨n₁, hn₁⟩ := h₁.left
  obtain ⟨n₂, hn₂⟩ := ((keeping _ _ _).trans h₂ h₃).left
  have hmade : ∀ {n}, t₁'.calls = t₁.calls ++ n → made = m₀ ++ n₁ ++ n ++ n₂ := by
    intro n hn
    rw [hn₂, hn, hn₁, hm₀] at hm
    simp only [List.append_assoc] at hm ⊢
    exact (List.append_cancel_left hm).symm
  have hold : ∀ {n}, t₁'.calls = t₁.calls ++ n → ∀ e, existing = some e →
      e.id = parsed.id ∧ K made e.toUnitRow := by
    rintro n hn e rfl
    have hf : t₀.db.units.find? parsed.id = some e.toUnitRow := hrow.symm
    rw [hmade hn]
    exact ⟨Table.key_of_find? hf, hK (hK (hK (hrows _ (Table.mem_of_find? hf))))⟩
  cases hsum
  case kept hd =>
    cases existing
    case none   => cases hd
    case some e =>
      simp only [shouldDistillUnit, Bool.or_eq_false_iff, decide_eq_false_iff_not, ne_eq, not_not] at hd
      obtain ⟨hid, hk⟩ := hold (List.append_nil _).symm e rfl
      exact .inr (.inl ⟨e.toUnitRow, hid, hk, rfl, hd.left.right⟩)
  case distilled hd hout =>
    rw [distillUnitSummary_eq] at hout hold hmade
    cases hout
    have hmem := hmade rfl
    cases ha : answer stack parsed.rawCode parsed.name t₁
    case some t =>
      refine .inl ⟨t, ?_, ?_⟩
      · show (answer stack parsed.rawCode parsed.name t₁).or _ = _
        rw [ha]
        rfl
      · rw [hmem, ←ha]
        exact List.mem_append_left _ (List.mem_append_right _ (.head _))
    case none =>
      have hsum : (answer stack parsed.rawCode parsed.popRawCode.name t₁).or (existing.bind (·.summary)) =
          existing.bind (·.summary) := by
        show (answer stack parsed.rawCode parsed.name t₁).or _ = _
        rw [ha]
        rfl
      refine .inr (.inr ⟨?_, ?_⟩)
      · rw [hmem, ←ha]
        exact List.mem_append_left _ (List.mem_append_right _ (.head _))
      · rw [hsum]
        cases existing
        case none   => exact .inl rfl
        case some e =>
          obtain ⟨hid, hk⟩ := hold rfl e rfl
          exact .inr ⟨e.toUnitRow, hid, hk, rfl⟩

theorem conduct_keeping {identity : String} (hs : s₀.Keeps start K L)
    (hj : stack.Justified force units start K L s₀) :
    Conduct (keeping start K L) (keeping start K L) (keeping start K L) stack force units identity s₀
      (fun _ => keeping start K L) (fun _ _ => True) where
  env _ _ _          := id
  quiet _ _ _        := id
  own _ _            := id
  idle s             := (keeping start K L).refl s
  get _ j s          := ⟨getUnit_keeping hK hL s, getUnit_keeping hK hL s⟩
  distill _ _ _ _ s  := ⟨distillUnitSummary_keeping hK hL s, distillUnitSummary_keeping hK hL s⟩
  has _ j s          := ⟨hasEmbedding_keeping hK hL s, hasEmbedding_keeping hK hL s⟩
  ensure             := ensure_keeping hK hL
  embed _            := aembed_keeping hK hL
  upsert u hu _ _ _ s hp _ :=
    have h := upsertUnit_keeping hK hL fun made hm _ => hj u hu _ _ _ s hp made hm
    ⟨h, fun _ _ => h⟩
  upsertVec _ _ s hp _ := by
    obtain ⟨u, hu, existing, summary, hasVec, t, rfl, hp, ⟨more, hc⟩, _⟩ := hp
    obtain ⟨made, hm, _⟩ := hp.rel.right hs
    refine upsertUnit_keeping hK hL fun made' hm' _ => ?_
    have he : made' = made ++ more := by
      rw [hc, hm, List.append_assoc] at hm'
      exact (List.append_cancel_left hm').symm
    rw [he]
    exact hK (hj u hu _ _ _ t hp made hm)
  delete s _         := deleteStaleUnits_keeping hK hL s

theorem wp_syncFile_keeping {filePath : String} {stored : Option String} (hs : s₀.Keeps start K L)
    (hj : ∀ units, stack.parser.distillFile filePath stored false = .ok units →
      stack.Justified force units start K L s₀) :
    (stack.syncFile force filePath stored).wp (keeping start K L) (keeping start K L)
      (fun _ s' => keeping start K L s₀ s') s₀ := by
  cases hd : stack.parser.distillFile filePath stored false
  case error e =>
    exact wp_mono (wp_syncFile_of_error force hd (keeping start K L).refl) fun _ _ h => h.left
  case ok units =>
    have hc : Conduct (keeping start K L) (keeping start K L) (keeping start K L) stack force units
        (stored.getD filePath) s₀ (fun _ => keeping start K L) (fun _ _ => True) :=
      conduct_keeping hK hL hs (hj units hd)
    refine wp_mono (hc.wp_syncFile hd rfl (List.pairwise_of_forall fun _ _ => trivial)
      fun _ => (keeping start K L).refl s₀) fun _ _ h => h.left

theorem syncProject_keeping {paths : List String} {indexAll : Bool} {n : Nat}
    {r : Except Exn (List (String × String))} {w' : World F} (hs : w.Keeps start K L)
    (hu : ∀ u ∈ w.db.units, K [] u)
    (hj : ∀ p ∈ paths, ∀ stored units, stack.parsesAt p stored units →
      ∀ w₁, keeping start K L w w₁ → stack.Justified force units start K L w₁)
    (h : stack.SyncProject paths force indexAll n w r w') : keeping start K L w w' := by
  have hre : keeping start K L w (stack.reembedIfDirty indexAll w).state :=
    reembedIfDirty_rel fun _ _ => reembedAllUnits_keeping hK hL hu
  cases h
  case raised he =>
    rw [he] at hre
    exact hre
  case returned w₁ fs he hout =>
    rw [he] at hre
    refine (keeping start K L).trans hre (hout.rel (R := fun _ => keeping start K L)
      (G := fun _ => keeping start K L) (Q := fun _ _ s' => keeping start K L w₁ s') ?_ (fun p hp => ?_)
      fun _ _ _ _ => id)
    · exact List.pairwise_of_forall fun _ _ => ⟨fun _ _ => id, fun _ _ => id⟩
    · refine wp_syncPath (keeping start K L).refl (fun _ h _ => h) fun stored units hpar => ?_
      refine wp_syncFile_keeping hK hL (hre.right hs) fun units' hd => ?_
      exact hj p hp stored units' ⟨hpar.left, hd⟩ w₁ hre

end Sync
end IndexStack
