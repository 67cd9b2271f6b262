import CodeRag.Parsers.Theorems.TreeSitter
import CodeRag.Services.Theorems.Sample
import CodeRag.Services.Theorems.SyncFile
import CodeRag.Storage.Theorems.Locality
import CodeRag.Storage.Theorems.Open

-- The files of a project can be synced in any order and at the same time.

namespace IndexStack

open Conn Coroutine World

variable {F : Floats} {stack : IndexStack F} {force : Bool} {w₀ s s' s₀ : World F} {paths : List String}
variable {path p q identity : String} {units us : List KnowledgeUnit} {stored : Option String}

section Apart

-- No unit that is stored for the first path has the id of a unit of the second one.
def Clear (stack : IndexStack F) (db : Db F) (p q : String) : Prop :=
  ∀ stored stored' units, stack.storedPath p = .ok stored → stack.parsesAt q stored' units →
    ∀ r ∈ db.units, r.path = stored.getD p → ∀ u ∈ units, u.id ≠ r.id

-- Two paths with different stored paths, whose parsed units have no ids in common.
structure Distinct (stack : IndexStack F) (p q : String) : Prop where
  paths : ∀ stored stored', stack.storedPath p = .ok stored → stack.storedPath q = .ok stored' →
    stored.getD p ≠ stored'.getD q
  ids   : ∀ stored stored' us us', stack.parsesAt p stored us → stack.parsesAt q stored' us' →
    ∀ u ∈ us, ∀ u' ∈ us', u.id ≠ u'.id

-- Two paths which have nothing to do with each other.
structure Apart (stack : IndexStack F) (db : Db F) (p q : String) : Prop extends stack.Distinct p q where
  clear  : stack.Clear db p q
  clear' : stack.Clear db q p

theorem Apart.symm {db : Db F} (h : stack.Apart db p q) : stack.Apart db q p where
  paths stored stored' hs hs'              := (h.paths stored' stored hs' hs).symm
  ids stored stored' us us' hp hp' u hu v hv := (h.ids stored' stored us' us hp' hp v hv u hu).symm
  clear  := h.clear'
  clear' := h.clear

instance {db : Db F} : Std.Symm (stack.Apart db) :=
  ⟨fun _ _ => .symm⟩

-- The ids that a path has to do with: those of its units in the index and those of its parsed units.
def Owns (stack : IndexStack F) (db : Db F) (path i : String) : Prop :=
  (∃ stored units, stack.parsesAt path stored units ∧ ∃ u ∈ units, u.id = i) ∨
    ∃ stored, stack.storedPath path = .ok stored ∧ ∃ u ∈ db.units, u.path = stored.getD path ∧ u.id = i

theorem Apart.not_owns {db : Db F} {i : String} (h : stack.Apart db p q) (hp : stack.Owns db p i) :
    ¬stack.Owns db q i := by
  intro hq
  obtain ⟨stored, us, hus, u, hu, rfl⟩ | ⟨stored, hs, u, hu, hpath, rfl⟩ := hp <;>
    obtain ⟨stored', us', hus', u', hu', he⟩ | ⟨stored', hs', u', hu', hpath', he⟩ := hq
  · exact h.ids stored stored' us us' hus hus' u hu u' hu' he.symm
  · exact h.clear' stored' stored us hs' hus u' hu' hpath' u hu he.symm
  · exact h.clear stored stored' us' hs hus' u hu hpath u' hu' he
  · have hrow : u' = u := Table.eq_of_key_eq hu' hu he
    exact h.paths stored stored' hs hs' (hpath.symm.trans (hrow ▸ hpath'))

end Apart

section Stage

-- A state of the session while the workers are at it, from state `w₀` on.
structure Stage (stack : IndexStack F) (w₀ : World F) (paths : List String) (s : World F) : Prop
    extends w₀.Working stack.embedder s where
  calm   : s.llmFaults = noFaults
  placed : ∀ p ∈ paths, ∀ stored, stack.storedPath p = .ok stored →
    ∀ u ∈ s.db.units, u.path = stored.getD p → stack.Owns w₀.db p u.id

theorem Stage.of_units (h : stack.Stage w₀ paths s) (hw : w₀.Working stack.embedder s')
    (hl : s'.llmFaults = s.llmFaults) (hu : ∀ u ∈ s'.db.units, u ∈ s.db.units) :
    stack.Stage w₀ paths s' :=
  ⟨hw, hl.trans h.calm, fun p hp stored hs u hm => h.placed p hp stored hs u (hu u hm)⟩

-- What the jobs of the other paths do in the meantime.
def others (stack : IndexStack F) (w₀ : World F) (paths : List String) (path : String) : Rely (World F) where
  rel s s'  := stack.Stage w₀ paths s → stack.Stage w₀ paths s' ∧
    s.db.SameOn (stack.Owns w₀.db path) s'.db ∧ (s.bound → s'.bound)
  refl _ h  := ⟨h, .refl, id⟩
  trans h h' hs :=
    have ⟨hs', hd, hb⟩ := h hs
    have ⟨hs'', hd', hb'⟩ := h' hs'
    ⟨hs'', hd.trans hd', hb' ∘ hb⟩

-- What the job of a path may do.
def own (stack : IndexStack F) (w₀ : World F) (paths : List String) (path : String) (s s' : World F) : Prop :=
  stack.Stage w₀ paths s → stack.Stage w₀ paths s' ∧ Touches (stack.Owns w₀.db path) s s'

-- The states of a session with and without the other jobs.
structure Beside (stack : IndexStack F) (w₀ : World F) (paths : List String) (path : String)
    (s s₀ : World F) : Prop extends Twin stack.embedder w₀ (stack.Owns w₀.db path) s s₀ where
  stage  : stack.Stage w₀ paths s
  stage₀ : stack.Stage w₀ paths s₀

theorem Beside.others (hr : stack.others w₀ paths path s s') (h : stack.Beside w₀ paths path s s₀) :
    stack.Beside w₀ paths path s' s₀ := by
  obtain ⟨hs, hd, hb⟩ := hr h.stage
  exact ⟨⟨hs.toWorking, h.alone, h.rows.trans hd, hb ∘ h.bound⟩, hs, h.stage₀⟩

-- One step of a job, which does the same with and without the others.
theorem Beside.mirrors_call {α : Type} {c : Conn F α} (h : stack.Beside w₀ paths path s s₀)
    (twin : ∀ s, stack.Beside w₀ paths path s s₀ →
      Twinned c stack.embedder w₀ (stack.Owns w₀.db path) s s₀)
    (stage : ∀ s, stack.Stage w₀ paths s → stack.Stage w₀ paths (c s).state)
    (touches : ∀ s, stack.Stage w₀ paths s → Touches (stack.Owns w₀.db path) s (c s).state) :
    (call c).mirrors (stack.others w₀ paths path) (stack.own w₀ paths path)
      (stack.Beside w₀ paths path) s s₀ := by
  refine Coroutine.mirrors_call (fun _ _ _ => .others) h fun s' h' => ?_
  obtain ⟨ho, ht⟩ := twin s' h'
  exact ⟨fun _ => ⟨stage _ h'.stage, touches _ h'.stage⟩, ho, ht, stage _ h'.stage, stage _ h'.stage₀⟩

theorem Stage.reads (h : stack.Stage w₀ paths s) (hr : s.Reads s') (hl : later s s') :
    stack.Stage w₀ paths s' := by
  have hw := h.toWorking.reads hr hl
  obtain ⟨f, rfl⟩ := hr
  exact h.of_units hw rfl fun _ => id

theorem Stage.ensure (h₀ : w₀.Ready) (h : stack.Stage w₀ paths s) :
    stack.Stage w₀ paths (ensureEmbeddingsBound stack.embedder s).state := by
  have hb := (ensureEmbeddingsBound_post : (ensureEmbeddingsBound stack.embedder).post _ s).left
  exact h.of_units (h.toWorking.ensure h₀) hb.llmFaults fun u hu => hb.db.units ▸ hu

theorem Stage.hasEmbedding {i : String} (h₀ : w₀.Ready) (h : stack.Stage w₀ paths s) :
    stack.Stage w₀ paths (hasEmbedding stack.embedder i s).state := by
  have hb := (hasEmbedding_post : (Conn.hasEmbedding stack.embedder i).post _ s).left
  exact h.of_units (h.toWorking.hasEmbedding h₀) hb.llmFaults fun u hu => hb.db.units ▸ hu

theorem Stage.aembed {texts : List String} (h : stack.Stage w₀ paths s) :
    stack.Stage w₀ paths (aembed stack.embedder texts s).state := by
  obtain ⟨f, hw⟩ := (aembed_post : (Conn.aembed stack.embedder texts).post _ s).left
  exact h.of_units h.toWorking.aembed (by rw [hw]) fun u hu => by rwa [hw] at hu

theorem Stage.deleteStaleUnits {ids : List String} (h₀ : w₀.Ready) (h : stack.Stage w₀ paths s) :
    stack.Stage w₀ paths (deleteStaleUnits stack.embedder identity ids s).state := by
  obtain ⟨w₁, f, _, hb, hw, hd, _⟩ :=
    (deleteStaleUnits_post : (Conn.deleteStaleUnits stack.embedder identity ids).post _ s)
  refine h.of_units (h.toWorking.deleteStaleUnits h₀) (by rw [hw]; exact hb.llmFaults) fun u hu => ?_
  rw [←hb.db.units]
  obtain he | ⟨he, _⟩ := hd.units <;> rw [he] at hu
  case inl => exact hu
  case inr => exact (Table.mem_delete.mp hu).left

end Stage

section Job

-- The job of a path that is parsed, among the jobs of other paths.
variable (h₀ : w₀.Ready) (hpath : path ∈ paths) (hparse : stack.parsesAt path stored units)
variable (hapart : ∀ p ∈ paths, p ≠ path → stack.Apart w₀.db p path)

-- A unit as it is stored by the job.
def Written (units : List KnowledgeUnit) (u : KnowledgeUnit) : Prop :=
  ∃ parsed ∈ units, ∃ summary, u = withSummary parsed summary

include hparse

theorem Written.owns {u : KnowledgeUnit} (hu : Written units u) : stack.Owns w₀.db path u.id := by
  obtain ⟨parsed, hm, summary, rfl⟩ := hu
  exact .inl ⟨stored, units, hparse, parsed, hm, rfl⟩

theorem Written.relations {u : KnowledgeUnit} (hu : Written units u) : u.relations = [] := by
  obtain ⟨parsed, hm, summary, rfl⟩ := hu
  exact (MultiParser.parsed_of_distillFile hparse.right parsed hm).relations

include h₀ hapart in
theorem Stage.upsertUnit {u : KnowledgeUnit} {vector : Option (List F)} (hu : Written units u)
    (h : stack.Stage w₀ paths s) : stack.Stage w₀ paths (upsertUnit stack.embedder u vector s).state := by
  obtain ⟨w₁, hx⟩ := (upsertUnit_post : (Conn.upsertUnit stack.embedder u vector).post _ s)
  have hframe := hx.frame
  refine ⟨h.toWorking.upsertUnit h₀, ?_, fun p hp stored' hs v hv he => ?_⟩
  · obtain ⟨f, hw⟩ := hframe
    rw [hw]
    exact hx.binds.llmFaults.trans h.calm
  · have hold : ∀ v ∈ w₁.db.units, v.path = stored'.getD p → stack.Owns w₀.db p v.id :=
      fun v hv => h.placed p hp stored' hs v (hx.binds.db.units ▸ hv)
    obtain hr | hr := hx.stores.units <;> rw [hr] at hv
    case inl => exact hold v hv he
    case inr =>
      obtain rfl | ⟨hv, _⟩ := Table.mem_insert.mp hv
      case inr => exact hold v hv he
      case inl =>
        by_cases hne : p = path
        case pos => exact hne ▸ hu.owns hparse
        case neg =>
          obtain ⟨parsed, hm, summary, rfl⟩ := hu
          have hpath := (MultiParser.parsed_of_distillFile hparse.right parsed hm).path
          exact absurd (he.symm.trans hpath) ((hapart p hp hne).paths stored' stored hs hparse.left)

-- The job does from `s` on what it does alone from `s₀` on.
abbrev Mirrors {α : Type} (stack : IndexStack F) (w₀ : World F) (paths : List String) (path : String)
    (t : Coroutine (World F) Exn α) (s s₀ : World F) : Prop :=
  t.mirrors (stack.others w₀ paths path) (stack.own w₀ paths path) (stack.Beside w₀ paths path) s s₀

omit hparse in
theorem mirrors_pure {α : Type} {a : α} (h : stack.Beside w₀ paths path s s₀) :
    stack.Mirrors w₀ paths path (pure a) s s₀ :=
  mirrors_done (fun _ _ _ => .others) h

omit hparse in
theorem mirrors_error {α : Type} {e : Exn} (h : stack.Beside w₀ paths path s s₀) :
    stack.Mirrors w₀ paths path (.done (.error e) : Coroutine (World F) Exn α) s s₀ :=
  mirrors_done (fun _ _ _ => .others) h

omit hparse in
theorem mirrors_rejectDirty (h : stack.Beside w₀ paths path s s₀) :
    stack.Mirrors w₀ paths path (call rejectDirtyIncremental) s s₀ := by
  have hreject : ∀ s : World F, (rejectDirtyIncremental s).state = s := by
    intro s
    unfold rejectDirtyIncremental
    split <;> rfl
  refine h.mirrors_call (fun s h => ?_) (fun s h => by rwa [hreject]) fun s h => by rw [hreject]; exact .refl
  refine ⟨?_, by rw [hreject, hreject]; exact h.toTwin⟩
  unfold rejectDirtyIncremental
  rw [h.among.dirty, h.alone.dirty]
  split <;> rfl

omit hparse in
theorem mirrors_getUnit {i : String} (hi : stack.Owns w₀.db path i) (h : stack.Beside w₀ paths path s s₀) :
    stack.Mirrors w₀ paths path (call (getUnit i)) s s₀ :=
  h.mirrors_call (fun _ h => h.toTwin.getUnit hi) (fun s h => h.reads getUnit_post.left (getUnit_built.later s))
    fun _ _ => .of_reads getUnit_post.left

omit hparse in
theorem mirrors_newSummary {unit : KnowledgeUnit} {existing : Option KnowledgeUnit} {rawCode : String}
    (h : stack.Beside w₀ paths path s s₀) :
    stack.Mirrors w₀ paths path (stack.newSummary force unit existing rawCode) s s₀ := by
  unfold newSummary
  split
  case isFalse => exact mirrors_pure h
  case isTrue  =>
    have hworking : ∀ {s}, w₀.Working stack.embedder s →
        w₀.Working stack.embedder (stack.distillUnitSummary unit existing rawCode s).state := by
      intro s h
      rw [distillUnitSummary_eq]
      exact h.congr ⟨.refl, rfl, rfl, rfl⟩ rfl rfl rfl h.faultFree
    refine h.mirrors_call (fun s h => ⟨?_, hworking h.among, hworking h.alone, ?_, ?_⟩)
      (fun s h => ⟨hworking h.toWorking, ?_, ?_⟩) fun s h => ?_
    · rw [distillUnitSummary_eq, distillUnitSummary_eq]
      unfold answer
      rw [h.stage.calm, h.stage₀.calm]
      rfl
    · rw [distillUnitSummary_eq, distillUnitSummary_eq]
      exact h.rows
    · rw [distillUnitSummary_eq, distillUnitSummary_eq]
      exact h.bound
    · rw [distillUnitSummary_eq]
      show (fun n => s.llmFaults (n + 1)) = _
      rw [h.calm]
      rfl
    · rw [distillUnitSummary_eq]
      exact h.placed
    · rw [distillUnitSummary_eq]
      exact ⟨.refl, id⟩

omit hparse in
include h₀ in
theorem mirrors_hasEmbedding {i : String} (hi : stack.Owns w₀.db path i)
    (h : stack.Beside w₀ paths path s s₀) :
    stack.Mirrors w₀ paths path (call (hasEmbedding stack.embedder i)) s s₀ :=
  h.mirrors_call (fun _ h => h.toTwin.hasEmbedding h₀ hi) (fun _ h => h.hasEmbedding h₀)
    fun _ _ => .of_binds hasEmbedding_post.left

omit hparse in
include h₀ in
theorem mirrors_ensure (h : stack.Beside w₀ paths path s s₀) :
    stack.Mirrors w₀ paths path (call (ensureEmbeddingsBound stack.embedder)) s s₀ :=
  h.mirrors_call (fun _ h => h.toTwin.ensure h₀) (fun _ h => h.ensure h₀) fun _ _ => .ensure

omit hparse in
theorem mirrors_aembed {texts : List String} (hb : s₀.bound) (h : stack.Beside w₀ paths path s s₀) :
    stack.Mirrors w₀ paths path (call (aembed stack.embedder texts)) s s₀ :=
  h.mirrors_call (fun _ h => h.toTwin.aembed hb) (fun _ h => h.aembed) fun _ _ => .aembed

include h₀ hapart

theorem mirrors_upsertUnit {u : KnowledgeUnit} {vector : Option (List F)} (hu : Written units u)
    (h : stack.Beside w₀ paths path s s₀) :
    stack.Mirrors w₀ paths path (call (upsertUnit stack.embedder u vector)) s s₀ := by
  refine h.mirrors_call (fun s h => ?_) (fun s h => h.upsertUnit h₀ hparse hapart hu) fun s h =>
    .upsertUnit h₀ h.toWorking (hu.relations hparse) (hu.owns hparse)
  cases vector
  case none   => exact h.toTwin.upsertUnit_none h₀ (hu.relations hparse)
  case some v => exact h.toTwin.upsertUnit_some h₀ (hu.relations hparse)

theorem mirrors_processUnit {parsed : KnowledgeUnit} (hu : parsed ∈ units)
    (h : stack.Beside w₀ paths path s s₀) :
    stack.Mirrors w₀ paths path (stack.processUnit force parsed) s s₀ := by
  have hi : stack.Owns w₀.db path parsed.popRawCode.id :=
    (show Written units (withSummary parsed none) from ⟨parsed, hu, none, rfl⟩).owns hparse
  refine mirrors_bind (mirrors_getUnit hi h) fun existing s₁ s₁₀ _ h₁ => ?_
  refine mirrors_bind (mirrors_newSummary h₁) fun summary s₂ s₂₀ _ h₂ => ?_
  refine mirrors_bind (mirrors_hasEmbedding h₀ hi h₂) fun hasVec s₃ s₃₀ _ h₃ => ?_
  split
  case isTrue  => exact mirrors_pure h₃
  case isFalse =>
    refine mirrors_bind (mirrors_upsertUnit h₀ hparse hapart ⟨parsed, hu, summary, rfl⟩ h₃) ?_
    exact fun _ _ _ _ h₄ => mirrors_pure h₄

theorem mirrors_processUnits (hus : ∀ u ∈ us, u ∈ units) (h : stack.Beside w₀ paths path s s₀) :
    stack.Mirrors w₀ paths path (stack.processUnits force us) s s₀ := by
  induction us generalizing s s₀
  case nil => exact mirrors_pure h
  case cons u us ih =>
    refine mirrors_bind (mirrors_processUnit h₀ hparse hapart (hus u (.head _)) h) fun here s₁ s₁₀ _ h₁ => ?_
    refine mirrors_bind (ih (fun u hu => hus u (.tail _ hu)) h₁) fun rest s₂ s₂₀ _ h₂ => ?_
    exact mirrors_pure h₂

omit h₀ hapart hparse in
theorem processUnits_yields (hus : ∀ u ∈ us, u ∈ units) :
    (stack.processUnits force us).Yields fun pending => ∀ u ∈ pending, Written units u := by
  induction us
  case nil => exact nofun
  case cons u us ih =>
    have hone : (stack.processUnit force u).Yields fun here => ∀ v ∈ here, Written units v := by
      refine yields_true.bind fun existing _ => yields_true.bind fun summary _ => yields_true.bind fun hasVec _ => ?_
      split
      case isTrue  =>
        intro v hv
        cases hv
        exact ⟨u, hus u (.head _), summary, rfl⟩
      case isFalse => exact yields_true.bind fun _ _ => nofun
    refine hone.bind fun here hh => (ih fun u hu => hus u (.tail _ hu)).bind fun rest hr => ?_
    intro v hv
    obtain hv | hv := List.mem_append.mp hv
    case inl => exact hh v (Option.mem_toList.mp hv)
    case inr => exact hr v hv

-- While vectors are stored, the embedder is bound.
theorem mirrors_upsertVectors {vs : List (KnowledgeUnit × List F)} (hu : ∀ v ∈ vs, Written units v.1)
    (h : stack.Beside w₀ paths path s s₀ ∧ s₀.bound) :
    (upsertVectors stack.embedder vs).mirrors (stack.others w₀ paths path) (stack.own w₀ paths path)
      (fun s s₀ => stack.Beside w₀ paths path s s₀ ∧ s₀.bound) s s₀ := by
  induction vs generalizing s s₀
  case nil => exact mirrors_done (fun _ _ _ hr => And.imp_left (.others hr)) h
  case cons v vs ih =>
    have hv := hu v (.head _)
    refine mirrors_bind (mirrors_mono (mirrors_upsertUnit h₀ hparse hapart hv h.left) fun s' h' => ?_)
      fun _ _ _ _ h₁ => ih (fun v hv => hu v (.tail _ hv)) h₁
    refine ⟨h', ?_⟩
    have hown : stack.Owns w₀.db path v.1.id := hv.owns hparse
    rw [run_call]
    exact (Touches.upsertUnit h₀ h.left.alone (hv.relations hparse) hown).bound h.right

theorem mirrors_embedBatches {chunks : List (List KnowledgeUnit)}
    (hu : ∀ chunk ∈ chunks, ∀ u ∈ chunk, Written units u)
    (h : stack.Beside w₀ paths path s s₀ ∧ s₀.bound) :
    (embedBatches stack.embedder chunks).mirrors (stack.others w₀ paths path) (stack.own w₀ paths path)
      (fun s s₀ => stack.Beside w₀ paths path s s₀ ∧ s₀.bound) s s₀ := by
  have hstable : ∀ s s' s₀ : World F, stack.others w₀ paths path s s' →
      stack.Beside w₀ paths path s s₀ ∧ s₀.bound → stack.Beside w₀ paths path s' s₀ ∧ s₀.bound :=
    fun _ _ _ hr => And.imp_left (.others hr)
  induction chunks generalizing s s₀
  case nil => exact mirrors_done hstable h
  case cons chunk chunks ih =>
    refine mirrors_bind (mirrors_mono (mirrors_aembed h.right h.left) fun s' h' => ⟨h', ?_⟩)
      fun vectors s₁ s₁₀ _ h₁ => ?_
    · have ht : Touches (stack.Owns w₀.db path) s₀
          (aembed stack.embedder (chunk.map fun u => unitEmbeddingText u.toUnitRow) s₀).state := .aembed
      rw [run_call]
      exact ht.bound h.right
    · split
      case isTrue  => exact mirrors_done hstable h₁
      case isFalse =>
        refine mirrors_bind (mirrors_upsertVectors h₀ hparse hapart ?_ h₁) fun _ _ _ _ h₂ => ?_
        · exact fun v hv => hu chunk (.head _) v.1 (List.of_mem_zip hv).left
        · exact ih (fun c hc => hu c (.tail _ hc)) h₂

theorem mirrors_embedAndUpsert (hu : ∀ u ∈ us, Written units u) (h : stack.Beside w₀ paths path s s₀) :
    stack.Mirrors w₀ paths path (embedAndUpsert stack.embedder us) s s₀ := by
  unfold embedAndUpsert
  split
  case isTrue  => exact mirrors_pure h
  case isFalse =>
    refine mirrors_bind (mirrors_ensure h₀ h) fun _ s₁ s₁₀ hr h₁ => ?_
    have hb : s₁₀.bound := by
      have hp := (ensureEmbeddingsBound_post : (ensureEmbeddingsBound stack.embedder).post _ s₀).right
      rw [run_call] at hr
      rw [hr] at hp
      exact hp () rfl
    refine mirrors_mono (mirrors_embedBatches h₀ hparse hapart ?_ ⟨h₁, hb⟩) fun _ => And.left
    intro chunk hc u hm
    refine hu u ?_
    rw [←batches_flatten (n := EMBEDDING_BATCH_SIZE) (l := us)]
    exact List.mem_flatten.mpr ⟨chunk, hc, hm⟩

omit hapart in
include hpath in
theorem mirrors_deleteStaleUnits {ids : List String} (h : stack.Beside w₀ paths path s s₀) :
    stack.Mirrors w₀ paths path (call (deleteStaleUnits stack.embedder (stored.getD path) ids)) s s₀ := by
  refine h.mirrors_call (fun _ h => h.toTwin.deleteStaleUnits h₀) (fun _ h => h.deleteStaleUnits h₀)
    fun s h => .deleteStaleUnits h₀ h.toWorking fun u hu hs => ?_
  have hp : u.path = stored.getD path := by
    unfold isStale at hs
    exact (of_decide_eq_true hs).left
  exact h.placed path hpath stored hparse.left u hu hp

include hpath in
theorem mirrors_syncFile (h : stack.Beside w₀ paths path s s₀) :
    stack.Mirrors w₀ paths path (stack.syncFile force path stored) s s₀ := by
  refine mirrors_bind (mirrors_rejectDirty h) fun _ s₁ s₁₀ _ h₁ => ?_
  rw [hparse.right]
  refine mirrors_bind (mirrors_pure h₁) fun current s₂ s₂₀ hr h₂ => ?_
  obtain rfl : units = current := by
    cases hr
    rfl
  refine mirrors_bind (mirrors_processUnits h₀ hparse hapart (fun _ => id) h₂) fun pending s₃ s₃₀ hr h₃ => ?_
  have hpending := (processUnits_yields fun _ => id).run hr
  refine mirrors_bind (mirrors_embedAndUpsert h₀ hparse hapart hpending h₃) fun _ s₄ s₄₀ _ h₄ => ?_
  exact mirrors_deleteStaleUnits h₀ hpath hparse h₄

end Job
section Project

variable (h₀ : w₀.Ready) (hapart : paths.Pairwise (stack.Apart w₀.db))

include hapart

include h₀ in
theorem mirrors_syncPath (hpath : path ∈ paths) (h : stack.Beside w₀ paths path s s₀) :
    stack.Mirrors w₀ paths path (stack.syncPath force path) s s₀ := by
  unfold syncPath
  cases hs : stack.storedPath path
  case error e   => exact mirrors_error h
  case ok stored =>
    show stack.Mirrors w₀ paths path (stack.syncFile force path stored) s s₀
    cases hd : stack.parser.distillFile path stored false
    case ok units =>
      exact mirrors_syncFile h₀ hpath ⟨hs, hd⟩ (fun p hp hne => hapart.forall hp hpath hne) h
    case error e  =>
      refine mirrors_bind (mirrors_rejectDirty h) fun _ s₁ s₁₀ _ h₁ => ?_
      rw [hd]
      exact mirrors_error h₁

-- What a job may do is what the jobs of the other paths can bear.
theorem compatible : paths.Pairwise
    (Pool.Compatible (stack.others w₀ paths) (stack.own w₀ paths)) := by
  have hown : ∀ p q, stack.Apart w₀.db p q → ∀ s s', stack.own w₀ paths p s s' →
      stack.others w₀ paths q s s' := by
    intro p q ha s s' h hs
    obtain ⟨hs', ht⟩ := h hs
    exact ⟨hs', ht.rows.mono fun i hi hp => ha.not_owns hp hi, ht.bound⟩
  exact hapart.imp fun ha => ⟨hown _ _ ha, hown _ _ ha.symm⟩

variable (hu : w₀.Usable) (hcalm : w₀.llmFaults = noFaults)

omit hapart in
include hu hcalm in
theorem beside_refl : stack.Beside w₀ paths path w₀ w₀ := by
  have hs : stack.Stage w₀ paths w₀ :=
    ⟨hu.working, hcalm, fun p _ stored hs u hm he => .inr ⟨stored, hs, u, hm, he, rfl⟩⟩
  exact ⟨⟨hu.working, hu.working, .refl, id⟩, hs, hs⟩

-- Rows that no path has to do with.
private def aside (stack : IndexStack F) (w₀ : World F) (paths : List String) : Rely (World F) where
  rel s s'      := stack.Stage w₀ paths s → stack.Stage w₀ paths s' ∧
    s.db.SameOn (fun i => ∀ p ∈ paths, ¬stack.Owns w₀.db p i) s'.db
  refl _ h      := ⟨h, .refl⟩
  trans h h' hs :=
    have ⟨hs', hd⟩ := h hs
    have ⟨hs'', hd'⟩ := h' hs'
    ⟨hs'', hd.trans hd'⟩

include hu hcalm

-- Any two ways to sync the paths leave the same rows.
theorem sameTables {n n' : Nat} {c c' : Pool String (World F) Exn} (hn : paths ≠ [] → 0 < n)
    (hn' : paths ≠ [] → 0 < n') (h : Pool.Steps (stack.syncPath force) (.start paths n w₀) c) (hf : c.Final)
    (h' : Pool.Steps (stack.syncPath force) (.start paths n' w₀) c') (hf' : c'.Final) :
    c.state.db.SameTables c'.state.db := by
  have hp := compatible hapart
  have hb : ∀ p ∈ paths, stack.Mirrors w₀ paths p (stack.syncPath force p) w₀ w₀ :=
    fun p hp => mirrors_syncPath hu.toReady hapart hp (beside_refl hu hcalm)
  have hg : ∀ p ∈ paths, ∀ s s', stack.own w₀ paths p s s' → stack.aside w₀ paths s s' := by
    intro p hp s s' h hs
    obtain ⟨hs', ht⟩ := h hs
    exact ⟨hs', ht.rows.mono fun i hi => hi p hp⟩
  have hself : stack.Beside w₀ paths "" w₀ w₀ := beside_refl hu hcalm
  have hstart := hself.stage
  refine Db.SameOn.sameTables fun i => ?_
  by_cases ho : ∃ p ∈ paths, stack.Owns w₀.db p i
  case pos =>
    obtain ⟨p, hm, ho⟩ := ho
    obtain ⟨r, hr⟩ := Pool.exists_returned hn h hf hm
    obtain ⟨r', hr'⟩ := Pool.exists_returned hn' h' hf' hm
    have hs := (Pool.final_alone hp hb hn h hf hr).right.rows
    have hs' := (Pool.final_alone hp hb hn' h' hf' hr').right.rows
    exact (hs.symm.trans hs').mono fun _ he => he ▸ ho
  case neg =>
    have ho : ∀ p ∈ paths, ¬stack.Owns w₀.db p i := fun p hm hi => ho ⟨p, hm, hi⟩
    have hs := (Pool.steps_rel hp hb hg h hstart).right
    have hs' := (Pool.steps_rel hp hb hg h' hstart).right
    exact (hs.symm.trans hs').mono fun _ he => he ▸ ho

end Project
section Confluent

-- What is reported of a path: what its sync raises when it is the only one.
def failureOf (stack : IndexStack F) (force : Bool) (w : World F) (path : String) : Option (String × String) :=
  match ((stack.syncPath force path).run w).outcome with
  | .ok _    => none
  | .error e => some (reportWorkerFailure (path, e))

-- However the workers are scheduled, they all leave in the end, and then each path has been synced once,
-- the paths that fail are reported once, and the tables are those that the paths leave when they are
-- synced one after another.
structure Confluent (stack : IndexStack F) (force : Bool) (paths : List String) (n : Nat) (w : World F) :
    Prop where
  finite   : ¬∃ f : Nat → Pool String (World F) Exn, f 0 = .start paths n w ∧
    ∀ k, Pool.Step (stack.syncPath force) (f k) (f (k + 1))
  moves    : ∀ c, Pool.Steps (stack.syncPath force) (.start paths n w) c → ¬c.Final →
    ∃ c', Pool.Step (stack.syncPath force) c c'
  once     : ∀ c, Pool.Steps (stack.syncPath force) (.start paths n w) c → c.Final →
    (c.returned.map Prod.fst).Perm paths
  failures : ∀ c, Pool.Steps (stack.syncPath force) (.start paths n w) c → c.Final →
    (c.failures.map reportWorkerFailure).Perm (paths.filterMap (stack.failureOf force w))
  tables   : ∀ c, Pool.Steps (stack.syncPath force) (.start paths n w) c → c.Final →
    (Pool.sequential (stack.syncPath force) paths w).2.db.SameTables c.state.db

theorem confluent {n : Nat} (hu : w₀.Usable) (hcalm : w₀.llmFaults = noFaults)
    (hapart : paths.Pairwise (stack.Apart w₀.db)) (hn : paths ≠ [] → 0 < n) :
    stack.Confluent force paths n w₀ where
  finite           := fun ⟨f, _, hf⟩ =>
    (wellFounded_iff_isEmpty_descending_chain.mp Pool.step_wf).false ⟨f, hf⟩
  moves _ _        := Pool.exists_step
  once _ h hf      := (Pool.final_returned hn h hf).right
  failures c h hf  := by
    have hp := Pool.failures_alone (compatible hapart)
      (fun p hp => mirrors_syncPath hu.toReady hapart hp (beside_refl hu hcalm)) hn h hf
    refine (hp.map reportWorkerFailure).trans ?_
    rw [List.map_filterMap]
    refine .of_eq (List.filterMap_congr fun p _ => ?_)
    unfold failureOf
    cases ((stack.syncPath force p).run w₀).outcome <;> rfl
  tables c h hf    := by
    have hseq : Pool.Outcome (stack.syncPath force) paths 1 w₀ _ _ := Pool.sequential_outcome
    obtain ⟨c', h', hf', _, hs'⟩ := hseq
    rw [←hs']
    exact sameTables hapart hu hcalm (fun _ => Nat.one_pos) hn h' hf' h hf

theorem syncProject_confluent {indexAll : Bool} {maxConcurrency : Nat} {w : World F}
    (hre : stack.reembedIfDirty indexAll w = .ok () w₀) (hu : w₀.Usable) (hcalm : w₀.llmFaults = noFaults)
    (hapart : paths.Pairwise (stack.Apart w₀.db)) (hn : 0 < maxConcurrency) :
    stack.Confluent force paths (workerCount paths maxConcurrency) w₀ ∧
    ∀ r w', stack.SyncProject paths force indexAll maxConcurrency w r w' →
      ∃ failures, r = .ok failures ∧ failures.Perm (paths.filterMap (stack.failureOf force w₀)) ∧
        (Pool.sequential (stack.syncPath force) paths w₀).2.db.SameTables w'.db := by
  have hc : stack.Confluent force paths (workerCount paths maxConcurrency) w₀ := by
    refine confluent hu hcalm hapart fun hne => ?_
    exact Nat.lt_min.mpr ⟨List.length_pos_iff.mpr hne, hn⟩
  refine ⟨hc, fun r w' h => ?_⟩
  cases h
  case raised e he => cases hre.symm.trans he
  case returned w₁ failures he ho =>
    cases hre.symm.trans he
    obtain ⟨c, hs, hf, rfl, rfl⟩ := ho
    exact ⟨_, rfl, hc.failures c hs hf, hc.tables c hs hf⟩

end Confluent

section Sample

-- The summary of a unit is its name.
private def naming (files : List (String × String)) : IndexStack naturals :=
  { Sample.stack "m" files "" none with summarize := fun _ name => .ok name }

private def opened (db : Db naturals) : World naturals :=
  .opened (Sample.embedder "m") db false none noFaults

-- A session on an index in which a file was stored by an earlier one.
private def indexedFile (path content : String) : World naturals :=
  opened (((naming [(path, content)]).syncFile false path none).run (opened .empty)).state.db

private theorem indexedFile_usable {path content : String}
    (h : (indexedFile path content).db.indexMeta.isSome) : (indexedFile path content).Usable :=
  ⟨⟨rfl, rfl, h⟩, fun hb => by cases hb⟩

-- Two files with one unit each.
private theorem naming_distinct {files : List (String × String)} {p q i j : String}
    (hpq : p ≠ q) (hij : i ≠ j)
    (hp : ((naming files).parser.distillFile p none false).map (·.map (·.id)) = .ok [i])
    (hq : ((naming files).parser.distillFile q none false).map (·.map (·.id)) = .ok [j]) :
    (naming files).Distinct p q := by
  refine ⟨?_, ?_⟩
  · rintro _ _ ⟨⟩ ⟨⟩
    exact hpq
  · rintro _ _ us us' ⟨⟨⟩, hus⟩ ⟨⟨⟩, hus'⟩ u hu u' hu' he
    have hid : u.id = i := by simpa [Sample.ids_eq hus hp] using List.mem_map_of_mem (f := (·.id)) hu
    have hid' : u'.id = j := by simpa [Sample.ids_eq hus' hq] using List.mem_map_of_mem (f := (·.id)) hu'
    exact hij (hid.symm.trans (he.trans hid'))

private theorem naming_clear {files : List (String × String)} {db : Db naturals} {p q i j : String}
    (hij : i ≠ j) (hrows : db.units.rows.map (·.id) = [j])
    (hq : ((naming files).parser.distillFile q none false).map (·.map (·.id)) = .ok [i]) :
    (naming files).Clear db p q := by
  rintro _ _ us ⟨⟩ ⟨⟨⟩, hus⟩ r hr _ u hu he
  have hid : u.id = i := by simpa [Sample.ids_eq hus hq] using List.mem_map_of_mem (f := (·.id)) hu
  have hrow : r.id = j := by simpa [hrows] using List.mem_map_of_mem (f := (·.id)) hr
  exact hij (hid.symm.trans (he.trans hrow))

-- The name of a function of a shell script may contain a colon and a dot.
private def files : IndexStack naturals :=
  naming [("a.sh", "b.sh:f=1"), ("a.sh:b.sh", "g=2")]

private theorem files_distinct : ["a.sh", "a.sh:b.sh"].Pairwise files.Distinct :=
  List.pairwise_pair.mpr (naming_distinct (i := "a.sh:b.sh:f") (j := "a.sh:b.sh:g") (by decide) (by decide)
    (by decide +kernel) (by decide +kernel))

-- A file that was stored by an earlier session has changed, and another one is new.
private def changed : IndexStack naturals :=
  naming [("a.py", "f=1"), ("b.py", "g=2")]

private theorem changed_apart :
    ["a.py", "b.py"].Pairwise (changed.Apart (indexedFile "a.py" "h=0").db) := by
  have hrows : (indexedFile "a.py" "h=0").db.units.rows.map (·.id) = ["a.py:h"] := by decide +kernel
  have ha : (changed.parser.distillFile "a.py" none false).map (·.map (·.id)) = .ok ["a.py:f"] := by
    decide +kernel
  have hb : (changed.parser.distillFile "b.py" none false).map (·.map (·.id)) = .ok ["b.py:g"] := by
    decide +kernel
  exact List.pairwise_pair.mpr ⟨naming_distinct (by decide) (by decide) ha hb,
    naming_clear (by decide) hrows hb, naming_clear (by decide) hrows ha⟩

theorem syncProject_confluent_sample :
    changed.Confluent false ["a.py", "b.py"] (workerCount ["a.py", "b.py"] 3) (indexedFile "a.py" "h=0") := by
  have hclean : (indexedFile "a.py" "h=0").dirty = false := by decide +kernel
  have husable : (indexedFile "a.py" "h=0").Usable := indexedFile_usable (by decide +kernel)
  have hre : changed.reembedIfDirty false (indexedFile "a.py" "h=0") = .ok () _ := reembedIfDirty_of_clean hclean
  exact (syncProject_confluent hre husable rfl changed_apart (by decide)).left

-- Both workers take a path, and the one with the second path is through before the other one starts.
private def overtaken : Pool String (World naturals) Exn :=
  (Pool.start ["a.sh", "a.sh:b.sh"] 2 (indexedFile "a.sh:b.sh" "f=1")).follow (files.syncPath false)
    ([0, 1] ++ List.replicate 16 1 ++ List.replicate 16 0)

-- Without the condition on the index, the tables depend on the schedule: the first path gets a unit
-- with the id of a unit that is still stored for the second one.
theorem not_confluent : ¬∀ (stack : IndexStack naturals) (paths : List String) (w : World naturals),
    w.Usable → w.llmFaults = noFaults → w.dirty = false → paths.Pairwise stack.Distinct →
    stack.Confluent false paths (workerCount paths 2) w := by
  intro h
  have hfinal : overtaken.Final := by decide +kernel
  have hclean : (indexedFile "a.sh:b.sh" "f=1").dirty = false := by decide +kernel
  have husable : (indexedFile "a.sh:b.sh" "f=1").Usable := indexedFile_usable (by decide +kernel)
  have hsame := (h files ["a.sh", "a.sh:b.sh"] (indexedFile "a.sh:b.sh" "f=1") husable rfl hclean
    files_distinct).tables overtaken (Pool.follow_steps _) hfinal
  have hfind := congrArg (Option.map UnitRow.summary) (hsame.find? "a.sh:b.sh:f")
  have hleft : (overtaken.state.db.units.find? "a.sh:b.sh:f").map UnitRow.summary = some (some "b.sh:f") := by
    decide +kernel
  have hright : ((Pool.sequential (files.syncPath false) ["a.sh", "a.sh:b.sh"]
      (indexedFile "a.sh:b.sh" "f=1")).2.db.units.find? "a.sh:b.sh:f").map UnitRow.summary = some (some "f") := by
    decide +kernel
  rw [hleft, hright] at hfind
  exact absurd hfind (by decide)

end Sample
end IndexStack
