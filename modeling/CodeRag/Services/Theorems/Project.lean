import CodeRag.Parsers.Theorems.TreeSitter
import CodeRag.Services.Theorems.SyncFile
import CodeRag.Storage.Theorems.Open
import CodeRag.Storage.Theorems.Settle

-- What all operations of a sync maintain holds after the sync of a project, however its workers are
-- interleaved.

namespace IndexStack

open Conn Coroutine World

variable {F : Floats} {stack : IndexStack F} {force : Bool} {units : List KnowledgeUnit}
variable {identity : String} {I : World F → Prop} {s s' s₀ : World F}

-- The operations on behalf of a file are within `S`.
structure Within (S : Rely (World F)) (stack : IndexStack F) (units : List KnowledgeUnit)
    (identity : String) : Prop where
  get     : ∀ i s, S s (getUnit i s).state
  distill : ∀ unit existing code s, S s (stack.distillUnitSummary unit existing code s).state
  has     : ∀ i s, S s (hasEmbedding stack.embedder i s).state
  ensure  : ∀ s, S s (ensureEmbeddingsBound stack.embedder s).state
  embed   : ∀ texts s, S s (aembed stack.embedder texts s).state
  upsert  : ∀ u ∈ units, ∀ summary vector s,
    S s (upsertUnit stack.embedder (withSummary u summary) vector s).state
  delete  : ∀ s, S s (deleteStaleUnits stack.embedder identity (units.map (·.id)) s).state

-- The operations on behalf of a file keep `I`.
abbrev Maintains (I : World F → Prop) (stack : IndexStack F) (units : List KnowledgeUnit)
    (identity : String) : Prop :=
  Within (.keeps I) stack units identity

theorem Within.conduct {S : Rely (World F)} (h : Within S stack units identity) :
    Conduct S S S stack force units identity s₀ (fun _ => S) (fun _ _ => True) where
  env _ _ _                := id
  quiet _ _ _              := id
  own _ _                  := id
  idle s                   := S.refl s
  get _ j s                := ⟨h.get j s, h.get j s⟩
  distill _ _ _ _ _        := ⟨h.distill _ _ _ _, h.distill _ _ _ _⟩
  has _ j s                := ⟨h.has j s, h.has j s⟩
  ensure                   := h.ensure
  embed                    := h.embed
  upsert u hu _ o _ s _ _  := ⟨h.upsert u hu o none s, fun _ _ => h.upsert u hu o none s⟩
  upsertVec _ _ s hp _     :=
    have ⟨u, hu, _, o, _, _, he, _⟩ := hp
    he ▸ h.upsert u hu o _ s
  delete s _               := h.delete s

-- When the sync of a file succeeds, its units have been stored, and then its stale units deleted.
theorem Within.wp_syncFile {S : Rely (World F)} (h : Within S stack units identity) (force : Bool)
    {filePath : String} {stored : Option String}
    (hp : stack.parser.distillFile filePath stored false = .ok units)
    (hi : stored.getD filePath = identity) : (stack.syncFile force filePath stored).wp S S
      (fun r s' => S s s' ∧ (r = .ok () → (∀ u ∈ units, stack.Stored S u s') ∧ ∃ t,
        (deleteStaleUnits stack.embedder identity (units.map (·.id)) t).outcome = .ok () ∧
        S (deleteStaleUnits stack.embedder identity (units.map (·.id)) t).state s')) s := by
  have hc : Conduct S S S stack force units identity s (fun _ => S) (fun _ _ => True) := h.conduct
  exact hc.wp_syncFile hp hi (List.pairwise_of_forall fun _ _ => trivial) fun _ => S.refl s

theorem Maintains.wp_syncFile (h : Maintains I stack units identity) (force : Bool) {filePath : String}
    {stored : Option String} (hp : stack.parser.distillFile filePath stored false = .ok units)
    (hi : stored.getD filePath = identity) (hs : I s) :
    (stack.syncFile force filePath stored).wp (.keeps I) (fun s s' => I s → I s')
      (fun _ s' => I s') s :=
  wp_mono (Within.wp_syncFile h force hp hi) fun _ _ hr => hr.left hs

-- What the operations on behalf of a file do to the tables.
theorem within_comap {T : Rely (Db F)} (hp : ∀ u ∈ units, TreeSitterParser.Parsed identity u)
    (binds : ∀ d d', d.Binds stack.embedder.modelId d' → T d d')
    (stores : ∀ u ∈ units, ∀ summary vector d d',
      d.Stores (withSummary u summary).toUnitRow vector [] d' → T d d')
    (deletes : ∀ d d', d.Deletes (isStale identity (units.map (·.id))) d' → T d d') :
    Within (T.comap World.db) stack units identity where
  get i s             := by
    obtain ⟨f, hw⟩ := (getUnit_post (i := i) (w := s)).left
    rw [hw]
    exact T.refl _
  distill _ _ _ s     := by
    rw [distillUnitSummary_eq]
    exact T.refl _
  has _ _             := binds _ _ hasEmbedding_post.left.db
  ensure _            := binds _ _ ensureEmbeddingsBound_post.left.db
  embed texts s       := by
    obtain ⟨f, hw⟩ := (aembed_post : (aembed stack.embedder texts).post _ s).left
    rw [hw]
    exact T.refl _
  upsert u hu o v s   := by
    obtain ⟨w₁, hx⟩ := (upsertUnit_post :
      (upsertUnit stack.embedder (withSummary u o) v).post _ s)
    exact T.trans (binds _ _ hx.binds.db) (stores u hu o v _ _ ((hp u hu).relations ▸ hx.stores))
  delete s            := by
    obtain ⟨w₁, f, _, hb, _, hd, _⟩ := (deleteStaleUnits_post :
      (deleteStaleUnits stack.embedder identity (units.map (·.id))).post _ s)
    exact T.trans (binds _ _ hb.db) (deletes _ _ hd)

theorem wp_syncPath_of_maintains {path : String}
    (h : ∀ stored units, stack.parsesAt path stored units →
      Maintains I stack units (stored.getD path)) (hs : I s) :
    (stack.syncPath force path).wp (.keeps I) (fun s s' => I s → I s') (fun _ s' => I s') s :=
  wp_syncPath (fun _ => id) (fun _ hr _ => hr hs) fun stored _ hp =>
    (h stored _ hp).wp_syncFile force hp.right rfl hs

-- A file without units only has its stale units deleted.
theorem wp_syncFile_nil {Q : Except Exn Unit → Prop} {filePath : String} {stored : Option String}
    (hp : stack.parser.distillFile filePath stored false = .ok []) (hs : I s)
    (clean : ∀ s, I s → s.dirty = false)
    (delete : ∀ s, I s →
      I (deleteStaleUnits stack.embedder (stored.getD filePath) [] s).state ∧
        Q (deleteStaleUnits stack.embedder (stored.getD filePath) [] s).outcome) :
    (stack.syncFile force filePath stored).wp (.keeps I) (fun s s' => I s → I s')
      (fun r s' => I s' ∧ Q r) s := by
  refine wp_bind (P := fun _ s' => I s') (wp_call fun s₁ h₁ => ?_) fun _ s₁ h₁ => ?_
  · have hr : rejectDirtyIncremental s₁ = .ok () s₁ := by
      simp [rejectDirtyIncremental, clean s₁ (h₁ hs)]
    rw [hr]
    exact ⟨id, fun s₂ h₂ => h₂ (h₁ hs)⟩
  rw [hp]
  show wp _ _ (call (deleteStaleUnits stack.embedder (stored.getD filePath) [])) _ _
  refine wp_call fun s₂ h₂ => ?_
  have ⟨hi, hq⟩ := delete s₂ (h₂ h₁)
  exact ⟨fun _ => hi, fun s₃ h₃ => ⟨h₃ hi, hq⟩⟩

variable {w₀ : World F}

theorem working_distill {unit : KnowledgeUnit} {existing : Option KnowledgeUnit} {code : String}
    (h : w₀.Working stack.embedder s) :
    w₀.Working stack.embedder (stack.distillUnitSummary unit existing code s).state := by
  rw [distillUnitSummary_eq]
  exact h.congr ⟨.refl, rfl, rfl, rfl⟩ rfl rfl rfl h.faultFree

theorem maintains_working (h₀ : w₀.Ready) :
    Maintains (fun s => w₀.Working stack.embedder s) stack units identity where
  get _ _ h          := h.getUnit
  distill _ _ _ _    := working_distill
  has _ _ h          := h.hasEmbedding h₀
  ensure _ h         := h.ensure h₀
  embed _ _ h        := h.aembed
  upsert _ _ _ _ _ h := h.upsertUnit h₀
  delete _ h         := h.deleteStaleUnits h₀

theorem usable_opened {embedder : Embedder F} {db : Db F} {wipe : Bool} {dimension : Option Nat}
    {llmFaults : Nat → Bool} : (World.opened embedder db wipe dimension llmFaults).Usable := by
  refine ⟨⟨rfl, rfl, ?_⟩, nofun⟩
  cases wipe <;> simp [World.opened, World.connect]

-- The sync of a file leaves a usable index.
theorem usable_syncFile {filePath : String} {stored : Option String} (h : s.Usable) :
    ((stack.syncFile force filePath stored).run s).state.Usable := by
  cases hd : stack.parser.distillFile filePath stored false
  case error =>
    have ⟨hs, _⟩ := wp_run <| wp_syncFile_of_error (R := .still) (G := fun s s' => s' = s) (s := s)
      force hd fun _ => rfl
    rw [show ((stack.syncFile force filePath stored).run s).state = s from hs]
    exact h
  case ok =>
    exact (wp_run ((maintains_working h.toReady).wp_syncFile force hd rfl h.working)).toUsable

-- The workers start in a usable index whose vectors are those of the session's model.
theorem usable_of_reembedIfDirty {indexAll : Bool} (h : s.Usable)
    (hr : stack.reembedIfDirty indexAll s = .ok () s') : s'.Usable ∧ s'.dirty = false := by
  obtain ⟨hd, rfl⟩ | ⟨_, _, hr⟩ := reembedIfDirty_cases hr
  case inl => exact ⟨h, hd⟩
  unfold reembedAllUnits at hr
  rw [run_bind, run_call, EStateM.bind_of_ok (show listUnits s = _ from select_of_faultFree h.faultFree),
    run_bind] at hr
  obtain ⟨_, s₂, h₂, hr⟩ | ⟨_, _, _, hr⟩ := EStateM.bind_cases hr
  case inr => cases hr
  have hwp := wp_embedAndUpsert (R := .still) (S := .keeps (s.Working stack.embedder))
    (G := fun t t' => s.Working stack.embedder t → s.Working stack.embedder t')
    (J := fun _ _ => True) (s := s)
    (fun _ _ h => by cases h; exact id) (fun _ _ => id) (fun _ _ _ h _ => h)
    (fun _ _ _ _ _ h' => h'.upsertUnit h.toReady) (fun _ h' => h'.ensure h.toReady)
    (fun _ _ h' => h'.aembed) fun u (_ : u ∈ s.db.units.rows.map fun u =>
      ({ toUnitRow := u, relations := [] } : KnowledgeUnit)) => trivial
  have hrun := (wp_run hwp).left h.working
  rw [h₂, EStateM.Result.state_ok] at hrun
  rw [run_call, markEmbeddingModelSynced, EStateM.bind_of_ok (metaSet_of_ready hrun.toReady)] at hr
  cases hr
  exact ⟨⟨⟨hrun.faultFree, hrun.mode, by simpa using hrun.indexMeta⟩, hrun.table⟩, rfl⟩

theorem compatible_of_keeps {paths : List String} : paths.Pairwise
    (Pool.Compatible (fun _ => .keeps I) fun _ s s' => I s → I s') :=
  List.pairwise_of_forall fun _ _ => ⟨fun _ _ => id, fun _ _ => id⟩

-- What is known of a path whose sync keeps what the syncs of all other paths maintain.
theorem outcome_of_maintains {paths : List String} {path : String} {n : Nat} {c : Pool String (World F) Exn}
    {Q : Except Exn Unit → Prop} (hn : 0 < n) (hs : I s)
    (others : ∀ p ∈ paths, p ≠ path → ∀ stored units, stack.parsesAt p stored units →
      Maintains I stack units (stored.getD p))
    (hbody : (stack.syncPath force path).wp (.keeps I) (fun s s' => I s → I s')
      (fun r s' => I s' ∧ Q r) s)
    (h : Pool.Steps (stack.syncPath force) (.start paths n s) c) (hf : c.Final) :
    I c.state ∧ ∀ r, (path, r) ∈ c.returned → Q r := by
  have hwp : ∀ p ∈ paths, (stack.syncPath force p).wp (.keeps I) (fun s s' => I s → I s')
      (fun r s' => I s' ∧ (p = path → Q r)) s := by
    intro p hp
    by_cases he : p = path
    case pos =>
      subst he
      exact wp_mono hbody fun _ _ h => ⟨h.left, fun _ => h.right⟩
    case neg =>
      exact wp_mono (wp_syncPath_of_maintains (others p hp he) hs) fun _ _ h =>
        ⟨h, fun h' => absurd h' he⟩
  refine ⟨?_, fun r hr => ?_⟩
  · exact Pool.steps_rel (S := .keeps I) compatible_of_keeps hwp (fun _ _ _ _ => id) h hs
  · exact (Pool.final_post (fun _ => hn) compatible_of_keeps hwp h hf hr).right rfl

end IndexStack
