import CodeRag.Services.Indexing
import CodeRag.Storage.Theorems.DuckDB

-- What the sync of one file knows at each of its steps about the states it has seen before. `R` is
-- what the other workers may do in between, `G` what the steps of the sync do themselves.

-- `vec` was returned by the embedder for `text`.
def Embedder.Embeds {F : Floats} (embedder : Embedder F) (text : String) (vec : List F) : Prop :=
  ∃ dim texts vectors, embedder.aembed dim texts = .ok vectors ∧
    vectors.length = texts.length ∧ (text, vec) ∈ texts.zip vectors

namespace IndexStack

open Conn Coroutine

variable {F : Floats} {R : Rely (World F)} {G : World F → World F → Prop} {S : Rely (World F)}
variable {s : World F}

section Embed

variable {embedder : Embedder F} {J : KnowledgeUnit → World F → Prop}

-- The unit was stored with a vector in some earlier state. `J u` justifies that unit `u` is stored
-- together with its vector.
def Embedded (embedder : Embedder F) (J : KnowledgeUnit → World F → Prop) (S : Rely (World F))
    (u : KnowledgeUnit) (s : World F) : Prop :=
  ∃ vec t, J u t ∧ embedder.Embeds (unitEmbeddingText u.toUnitRow) vec ∧
    (upsertUnit embedder u (some vec) t).outcome = .ok () ∧
      S (upsertUnit embedder u (some vec) t).state s

theorem Embedded.mono {u : KnowledgeUnit} {s' : World F} (h : Embedded embedder J S u s)
    (hs : S s s') : Embedded embedder J S u s' :=
  let ⟨vec, t, hj, he, ho, ht⟩ := h
  ⟨vec, t, hj, he, ho, S.trans ht hs⟩

variable (env : ∀ s s', R s s' → S s s') (own : ∀ s s', G s s' → S s s')
variable (stable : ∀ u s s', J u s → S s s' → J u s')
variable (upsert : ∀ u vec s, J u s → embedder.Embeds (unitEmbeddingText u.toUnitRow) vec →
  G s (upsertUnit embedder u (some vec) s).state)

include env own stable upsert in
theorem wp_upsertVectors {us : List (KnowledgeUnit × List F)} (hs : ∀ u ∈ us, J u.1 s)
    (he : ∀ u ∈ us, embedder.Embeds (unitEmbeddingText u.1.toUnitRow) u.2) :
    (upsertVectors embedder us).wp R G
      (fun r s' => S s s' ∧ (r = .ok () → ∀ u ∈ us, Embedded embedder J S u.1 s')) s := by
  induction us generalizing s
  case nil => exact wp_done fun s' hs' => ⟨env _ _ hs', fun _ => nofun⟩
  case cons u us ih =>
    refine wp_bind (P := fun _ s' => S s s' ∧ Embedded embedder J S u.1 s') (wp_call ?_) ?_
    · intro s₁ h₁
      have hg := upsert u.1 u.2 s₁ (stable _ _ _ (hs u (.head _)) (env _ _ h₁)) (he u (.head _))
      refine ⟨hg, fun s₂ h₂ => ?_⟩
      have hs₂ := S.trans (env _ _ h₁) (S.trans (own _ _ hg) (env _ _ h₂))
      cases ho : (upsertUnit embedder u.1 (some u.2) s₁).outcome
      case error => exact ⟨hs₂, nofun⟩
      case ok    =>
        exact ⟨hs₂, u.2, s₁, stable _ _ _ (hs u (.head _)) (env _ _ h₁), he u (.head _), ho, env _ _ h₂⟩
    · rintro _ s₁ ⟨h₁, hu⟩
      refine wp_mono (ih (fun u' hu' => stable _ _ _ (hs u' (.tail _ hu')) h₁)
        fun u' hu' => he u' (.tail _ hu')) fun r s' ⟨h', hr⟩ => ⟨S.trans h₁ h', fun ho => ?_⟩
      exact List.forall_mem_cons.mpr ⟨hu.mono h', hr ho⟩

variable (ensure : ∀ s, G s (ensureEmbeddingsBound embedder s).state)
variable (embed : ∀ texts s, G s (aembed embedder texts s).state)

include env own stable upsert embed in
theorem wp_embedBatches {chunks : List (List KnowledgeUnit)}
    (hs : ∀ chunk ∈ chunks, ∀ u ∈ chunk, J u s) :
    (embedBatches embedder chunks).wp R G (fun r s' => S s s' ∧
      (r = .ok () → ∀ chunk ∈ chunks, ∀ u ∈ chunk, Embedded embedder J S u s')) s := by
  induction chunks generalizing s
  case nil => exact wp_done fun s' hs' => ⟨env _ _ hs', fun _ => nofun⟩
  case cons chunk chunks ih =>
    have hj : ∀ s', S s s' → ∀ u ∈ chunk, J u s' :=
      fun s' h u hu => stable _ _ _ (hs chunk (.head _) u hu) h
    refine wp_bind (P := fun vectors s' => S s s' ∧ (vectors.length = chunk.length →
      ∀ u ∈ chunk.zip vectors, embedder.Embeds (unitEmbeddingText u.1.toUnitRow) u.2))
      (wp_call ?_) ?_
    · intro s₁ h₁
      have hg := embed (chunk.map fun u => unitEmbeddingText u.toUnitRow) s₁
      refine ⟨hg, fun s₂ h₂ => ?_⟩
      have hs₂ := S.trans (env _ _ h₁) (S.trans (own _ _ hg) (env _ _ h₂))
      have hv := (aembed_post : (aembed embedder
        (chunk.map fun u => unitEmbeddingText u.toUnitRow)).post _ s₁).right
      cases ho : (aembed embedder (chunk.map fun u => unitEmbeddingText u.toUnitRow) s₁).outcome
      case error => exact ⟨hs₂, nofun⟩
      case ok vectors =>
        refine ⟨hs₂, fun hl u hu => ⟨_, _, vectors, hv _ ho, by simpa using hl, ?_⟩⟩
        rw [List.zip_map_left]
        exact List.mem_map.mpr ⟨u, hu, rfl⟩
    · rintro vectors s₁ ⟨h₁, he⟩
      split
      case isTrue => exact wp_done fun s' hs' => ⟨S.trans h₁ (env _ _ hs'), nofun⟩
      case isFalse hl =>
        have hl : vectors.length = chunk.length := not_not.mp hl
        refine wp_bind (P := fun _ s' => S s s' ∧ ∀ u ∈ chunk, Embedded embedder J S u s')
          (wp_mono (wp_upsertVectors env own stable upsert
            (fun u hu => hj _ h₁ u.1 (List.of_mem_zip hu).left) (he hl)) ?_) ?_
        · rintro (e | _) s₂ ⟨h₂, hr⟩
          case error => exact ⟨S.trans h₁ h₂, nofun⟩
          case ok =>
            refine ⟨S.trans h₁ h₂, fun u hu => ?_⟩
            have hz : u ∈ (chunk.zip vectors).map Prod.fst := by
              rwa [List.map_fst_zip hl.ge]
            obtain ⟨u', hu', rfl⟩ := List.mem_map.mp hz
            exact hr rfl u' hu'
        · rintro _ s₂ ⟨h₂, hc⟩
          refine wp_mono (ih fun c hc' u hu => stable _ _ _ (hs c (.tail _ hc') u hu) h₂)
            fun r s' ⟨h', hr⟩ => ⟨S.trans h₂ h', fun ho => ?_⟩
          exact List.forall_mem_cons.mpr ⟨fun u hu => (hc u hu).mono h', hr ho⟩

include env own stable upsert ensure embed in
theorem wp_embedAndUpsert {units : List KnowledgeUnit} (hs : ∀ u ∈ units, J u s) :
    (embedAndUpsert embedder units).wp R G (fun r s' => S s s' ∧
      (r = .ok () → ∀ u ∈ units, Embedded embedder J S u s')) s := by
  unfold embedAndUpsert
  split
  case isTrue hu =>
    rw [List.isEmpty_iff.mp hu]
    exact wp_done fun s' hs' => ⟨env _ _ hs', fun _ => nofun⟩
  case isFalse =>
    refine wp_bind (P := fun _ s' => S s s') (wp_call fun s₁ h₁ => ?_) fun _ s₁ h₁ => ?_
    · have hg := ensure s₁
      refine ⟨hg, fun s₂ h₂ => ?_⟩
      have hs₂ := S.trans (env _ _ h₁) (S.trans (own _ _ hg) (env _ _ h₂))
      cases (ensureEmbeddingsBound embedder s₁).outcome
      case error => exact ⟨hs₂, nofun⟩
      case ok    => exact hs₂
    · have hf : ∀ u, u ∈ units ↔ ∃ c ∈ batches EMBEDDING_BATCH_SIZE units, u ∈ c := by
        intro u
        rw [←List.mem_flatten, batches_flatten]
      refine wp_mono (wp_embedBatches env own stable upsert embed
        fun c hc u hu => stable _ _ _ (hs u ((hf u).mpr ⟨c, hc, hu⟩)) h₁)
        fun r s' ⟨h', hr⟩ => ⟨S.trans h₁ h', fun ho u hu => ?_⟩
      obtain ⟨c, hc, hu⟩ := (hf u).mp hu
      exact hr ho c hc u hu

end Embed

section Sync

variable (stack : IndexStack F) (force : Bool) (units : List KnowledgeUnit)
variable (s₀ : World F) (Q : String → Rely (World F))

-- What the summarizer answers in a state, if it does not raise.
def answer (stack : IndexStack F) (code name : String) (w : World F) : Option String :=
  if w.llmFaults 0 then none else (stack.summarize code name).toOption

private theorem callSummarize_eq (code name : String) (w : World F) :
    ∃ e, callSummarize stack code name w =
      let w' := { w with
        llmFaults := fun n => w.llmFaults (n + 1)
        calls     := w.calls ++ [.summarize code name (answer stack code name w)] }
      match answer stack code name w with
      | some summary => .ok summary w'
      | none         => .error e w' := by
  unfold callSummarize answer
  by_cases hf : w.llmFaults 0
  case pos => exact ⟨_, by simp only [hf, if_true]; rfl⟩
  case neg =>
    cases hs : stack.summarize code name
    case ok t    => exact ⟨.other "", by simp only [hf]; rfl⟩
    case error e => exact ⟨e, by simp only [hf]; rfl⟩

-- A unit keeps its summary when the summarizer raises.
theorem distillUnitSummary_eq {unit : KnowledgeUnit} {existing : Option KnowledgeUnit}
    {code : String} {w : World F} : distillUnitSummary stack unit existing code w =
      .ok ((answer stack code unit.name w).or (existing.bind (·.summary))) { w with
        llmFaults := fun n => w.llmFaults (n + 1)
        calls     := w.calls ++ [.summarize code unit.name (answer stack code unit.name w)] } := by
  obtain ⟨e, hc⟩ := callSummarize_eq stack code unit.name w
  unfold distillUnitSummary
  cases ha : answer stack code unit.name w <;> rw [ha] at hc
  case none   => exact EStateM.tryCatch_of_error (EStateM.bind_of_error hc)
  case some t => exact EStateM.tryCatch_of_ok (EStateM.bind_of_ok hc)

-- A parsed unit with its summary, as it is stored.
def withSummary (parsed : KnowledgeUnit) (summary : Option String) : KnowledgeUnit :=
  { parsed.popRawCode with summary := summary }

@[simp] theorem withSummary_id {u : KnowledgeUnit} {o : Option String} :
    (withSummary u o).id = u.id := rfl

@[simp] theorem withSummary_path {u : KnowledgeUnit} {o : Option String} :
    (withSummary u o).path = u.path := rfl

@[simp] theorem withSummary_codeHash {u : KnowledgeUnit} {o : Option String} :
    (withSummary u o).codeHash = u.codeHash := rfl

@[simp] theorem withSummary_summary {u : KnowledgeUnit} {o : Option String} :
    (withSummary u o).summary = o := rfl

theorem unitNeedsEmbedding_eq_false {unit : KnowledgeUnit} {existing : Option KnowledgeUnit}
    {hasVec : Bool} : unitNeedsEmbedding unit existing hasVec = false ↔
      ∃ e, existing = some e ∧ e.codeHash = unit.codeHash ∧ e.summary = unit.summary ∧ hasVec := by
  cases existing <;> simp [unitNeedsEmbedding]

-- How the summary of a unit is found in state `t`, which leads to state `t'`.
inductive Summarized (parsed : KnowledgeUnit) (existing : Option KnowledgeUnit) (t : World F) :
    Option String → World F → Prop
  | kept :
    shouldDistillUnit existing parsed.popRawCode force = false →
    Summarized parsed existing t (existing.bind (·.summary)) t
  | distilled {summary : Option String} :
    shouldDistillUnit existing parsed.popRawCode force →
    (stack.distillUnitSummary parsed.popRawCode existing parsed.rawCode t).outcome = .ok summary →
    Summarized parsed existing t summary
      (stack.distillUnitSummary parsed.popRawCode existing parsed.rawCode t).state

-- The past of a state in which a unit is about to be stored. `s₀` is the state in which the sync
-- started, and `Q i` relates any two states between which this sync did not store the unit `i`.
inductive Prepared (parsed : KnowledgeUnit) :
    Option KnowledgeUnit → Option String → Bool → World F → Prop
  | intro {existing : Option KnowledgeUnit} {summary : Option String} {hasVec : Bool}
    {t₀ t₁ t₁' t₂ s : World F} :
    Q parsed.id s₀ t₀ → (getUnit parsed.id t₀).outcome = .ok existing →
    Q parsed.id t₀ t₁ → stack.Summarized force parsed existing t₁ summary t₁' → Q parsed.id t₁ t₁' →
    Q parsed.id t₁' t₂ → (hasEmbedding stack.embedder parsed.id t₂).outcome = .ok hasVec →
    Q parsed.id t₂ s → Prepared parsed existing summary hasVec s

-- The unit was stored in some earlier state.
def Stored (S : Rely (World F)) (parsed : KnowledgeUnit) (s : World F) : Prop :=
  ∃ summary vector t, (upsertUnit stack.embedder (withSummary parsed summary) vector t).outcome =
    .ok () ∧ S (upsertUnit stack.embedder (withSummary parsed summary) vector t).state s

-- The unit waits to be embedded.
def Pending (S : Rely (World F)) (unit : KnowledgeUnit) (s : World F) : Prop :=
  ∃ parsed ∈ units, ∃ existing summary hasVec t, unit = withSummary parsed summary ∧
    stack.Prepared force s₀ Q parsed existing summary hasVec t ∧ S t s

variable {stack force units s₀ Q}

theorem Stored.mono {u : KnowledgeUnit} {s' : World F} (h : stack.Stored S u s) (hs : S s s') :
    stack.Stored S u s' :=
  let ⟨summary, vector, t, ho, ht⟩ := h
  ⟨summary, vector, t, ho, S.trans ht hs⟩

theorem Pending.mono {u : KnowledgeUnit} {s' : World F} (h : stack.Pending force units s₀ Q S u s)
    (hs : S s s') : stack.Pending force units s₀ Q S u s' :=
  let ⟨parsed, hp, existing, summary, hasVec, t, hu, hq, ht⟩ := h
  ⟨parsed, hp, existing, summary, hasVec, t, hu, hq, S.trans ht hs⟩

-- The obligations for the steps of the sync of a file with the given units. Storing a unit may concern
-- all units but those that are apart from it.
structure Conduct (R : Rely (World F)) (G : World F → World F → Prop) (S : Rely (World F))
    (stack : IndexStack F) (force : Bool) (units : List KnowledgeUnit) (identity : String)
    (s₀ : World F) (Q : String → Rely (World F)) (Apart : String → String → Prop) : Prop where
  env       : ∀ i s s', R s s' → Q i s s'
  quiet     : ∀ i s s', Q i s s' → S s s'
  own       : ∀ s s', G s s' → S s s'
  idle      : ∀ s, G s s
  get       : ∀ i j s, G s (getUnit j s).state ∧ Q i s (getUnit j s).state
  distill   : ∀ parsed ∈ units, ∀ i existing s,
    let s' := (stack.distillUnitSummary parsed.popRawCode existing parsed.rawCode s).state
    G s s' ∧ Q i s s'
  has       : ∀ i j s, G s (hasEmbedding stack.embedder j s).state ∧
    Q i s (hasEmbedding stack.embedder j s).state
  ensure    : ∀ s, G s (ensureEmbeddingsBound stack.embedder s).state
  embed     : ∀ texts s, G s (aembed stack.embedder texts s).state
  upsert    : ∀ parsed ∈ units, ∀ existing summary hasVec s,
    stack.Prepared force s₀ Q parsed existing summary hasVec s →
    unitNeedsEmbedding (withSummary parsed summary) existing hasVec = false →
    let s' := (upsertUnit stack.embedder (withSummary parsed summary) none s).state
    G s s' ∧ ∀ i, Apart parsed.id i → Q i s s'
  upsertVec : ∀ unit vec s, stack.Pending force units s₀ Q S unit s →
    stack.embedder.Embeds (unitEmbeddingText unit.toUnitRow) vec →
    G s (upsertUnit stack.embedder unit (some vec) s).state
  delete    : ∀ s, (∀ u ∈ units, stack.Stored S u s) →
    G s (deleteStaleUnits stack.embedder identity (units.map (·.id)) s).state

section Conduct

variable {identity : String} {Apart : String → String → Prop}
variable (h : Conduct R G S stack force units identity s₀ Q Apart)
include h

theorem Conduct.env_own {s s' : World F} (hs : R s s') : S s s' :=
  h.quiet "" _ _ (h.env _ _ _ hs)

theorem Conduct.wp_processUnit {parsed : KnowledgeUnit} (hu : parsed ∈ units)
    (hs : Q parsed.id s₀ s) : (stack.processUnit force parsed).wp R G (fun r s' =>
      S s s' ∧ (∀ i, Apart parsed.id i → Q i s s') ∧
        match r with
        | .ok (some unit) => stack.Pending force units s₀ Q S unit s' ∧
          ∃ summary, unit = withSummary parsed summary
        | .ok none        => stack.Stored S parsed s'
        | .error _        => True) s := by
  have quiet : ∀ {s'}, (∀ i, Q i s s') → S s s' := fun hq => h.quiet "" _ _ (hq "")
  -- The unit that is stored.
  refine wp_bind (P := fun existing t₀' => (∀ i, Q i s t₀') ∧ ∃ t₀, Q parsed.id s t₀ ∧
    (getUnit parsed.id t₀).outcome = .ok existing ∧ Q parsed.id t₀ t₀') (wp_call ?_) ?_
  · intro t₀ h₀
    have ⟨hg, _⟩ := h.get parsed.id parsed.id t₀
    refine ⟨hg, fun t₀' h₀' => ?_⟩
    have hq : ∀ i, Q i t₀ t₀' :=
      fun i => (Q i).trans (h.get i parsed.id t₀).right (h.env i _ _ h₀')
    have hq' : ∀ i, Q i s t₀' := fun i => (Q i).trans (h.env i _ _ h₀) (hq i)
    simp only [KnowledgeUnit.popRawCode_id]
    cases ho : (getUnit parsed.id t₀).outcome
    case error => exact ⟨quiet hq', fun i _ => hq' i, trivial⟩
    case ok    => exact ⟨hq', t₀, h.env _ _ _ h₀, ho, hq _⟩
  rintro existing t₀' ⟨hq₀, t₀, h₀, ho₀, h₀'⟩
  -- Its new summary.
  refine wp_bind (P := fun summary t₁'' => (∀ i, Q i s t₁'') ∧ ∃ t₁ t₁', Q parsed.id t₀ t₁ ∧
    stack.Summarized force parsed existing t₁ summary t₁' ∧ Q parsed.id t₁ t₁' ∧
    Q parsed.id t₁' t₁'') ?_ ?_
  · unfold newSummary
    split
    case isTrue hd =>
      refine wp_call fun t₁ h₁ => ?_
      have ⟨hg, _⟩ := h.distill parsed hu parsed.id existing t₁
      refine ⟨hg, fun t₁' h₁' => ?_⟩
      have hq : ∀ i, Q i s t₁' := fun i => (Q i).trans (hq₀ i) <| (Q i).trans (h.env i _ _ h₁) <|
        (Q i).trans (h.distill parsed hu i existing t₁).right (h.env i _ _ h₁')
      cases ho : (stack.distillUnitSummary parsed.popRawCode existing parsed.rawCode t₁).outcome
      case error => exact ⟨quiet hq, fun i _ => hq i, trivial⟩
      case ok    =>
        exact ⟨hq, t₁, _, (Q _).trans h₀' (h.env _ _ _ h₁), .distilled hd ho,
          (h.distill parsed hu parsed.id existing t₁).right, h.env _ _ _ h₁'⟩
    case isFalse hd =>
      refine wp_done fun t₁ h₁ => ?_
      refine ⟨fun i => (Q i).trans (hq₀ i) (h.env i _ _ h₁), t₁, t₁, ?_⟩
      exact ⟨(Q _).trans h₀' (h.env _ _ _ h₁), .kept (by simpa using hd), (Q _).refl _, (Q _).refl _⟩
  rintro summary t₁'' ⟨hq₁, t₁, t₁', h₁, hsum, h₁', h₁''⟩
  -- Whether it has a vector.
  refine wp_bind (P := fun hasVec t₂' => (∀ i, Q i s t₂') ∧
    stack.Prepared force s₀ Q parsed existing summary hasVec t₂') (wp_call ?_) ?_
  · intro t₂ h₂
    have ⟨hg, _⟩ := h.has parsed.id parsed.id t₂
    refine ⟨hg, fun t₂' h₂' => ?_⟩
    have hq : ∀ i, Q i t₂ t₂' :=
      fun i => (Q i).trans (h.has i parsed.id t₂).right (h.env i _ _ h₂')
    have hq' : ∀ i, Q i s t₂' :=
      fun i => (Q i).trans (hq₁ i) <| (Q i).trans (h.env i _ _ h₂) (hq i)
    simp only [KnowledgeUnit.popRawCode_id]
    cases ho : (hasEmbedding stack.embedder parsed.id t₂).outcome
    case error => exact ⟨quiet hq', fun i _ => hq' i, trivial⟩
    case ok =>
      exact ⟨hq', .intro ((Q _).trans hs h₀) ho₀ h₁ hsum h₁'
        ((Q _).trans h₁'' (h.env _ _ _ h₂)) ho (hq _)⟩
  rintro hasVec t₂' ⟨hq₂, hp⟩
  split
  case isTrue =>
    refine wp_done fun s' hs' => ?_
    have hq : ∀ i, Q i s s' := fun i => (Q i).trans (hq₂ i) (h.env i _ _ hs')
    refine ⟨quiet hq, fun i _ => hq i, ?_, summary, rfl⟩
    exact ⟨parsed, hu, existing, summary, hasVec, t₂', rfl, hp, h.env_own hs'⟩
  case isFalse hn =>
    refine wp_bind (P := fun _ s' => S s s' ∧ (∀ i, Apart parsed.id i → Q i s s') ∧
      stack.Stored S parsed s') (wp_call fun t₃ h₃ => ?_) fun _ t₄ ⟨h₄, hq₄, hu₄⟩ => ?_
    · have hp' : stack.Prepared force s₀ Q parsed existing summary hasVec t₃ := by
        obtain ⟨a, b, c, d, e, f, g, k⟩ := hp
        exact ⟨a, b, c, d, e, f, g, (Q _).trans k (h.env _ _ _ h₃)⟩
      have ⟨hg, hq⟩ := h.upsert parsed hu existing summary hasVec t₃ hp' (Bool.not_eq_true _ ▸ hn)
      refine ⟨hg, fun s' hs' => ?_⟩
      have hs₃ : S s s' := S.trans (quiet hq₂) <| S.trans (h.env_own h₃) <|
        S.trans (h.own _ _ hg) (h.env_own hs')
      have hq' : ∀ i, Apart parsed.id i → Q i s s' := fun i hi => (Q i).trans (hq₂ i) <|
        (Q i).trans (h.env i _ _ h₃) <| (Q i).trans (hq i hi) (h.env i _ _ hs')
      cases ho : (upsertUnit stack.embedder (withSummary parsed summary) none t₃).outcome <;>
        simp only [withSummary, ho] at *
      case error => exact ⟨hs₃, hq', trivial⟩
      case ok    => exact ⟨hs₃, hq', summary, none, t₃, ho, h.env_own hs'⟩
    · refine wp_done fun s' hs' => ⟨S.trans h₄ (h.env_own hs'), ?_, hu₄.mono (h.env_own hs')⟩
      exact fun i hi => (Q i).trans (hq₄ i hi) (h.env i _ _ hs')

theorem Conduct.wp_processUnits {us : List KnowledgeUnit} (hu : ∀ u ∈ us, u ∈ units)
    (hd : us.Pairwise fun u v => Apart u.id v.id) (hs : ∀ u ∈ us, Q u.id s₀ s) :
    (stack.processUnits force us).wp R G (fun r s' => S s s' ∧ ∀ pending, r = .ok pending →
      (∀ unit ∈ pending, stack.Pending force units s₀ Q S unit s') ∧
      ∀ u ∈ us, stack.Stored S u s' ∨ ∃ summary, withSummary u summary ∈ pending) s := by
  induction us generalizing s
  case nil =>
    refine wp_done fun s' hs' => ⟨h.env_own hs', fun pending hp => ?_⟩
    cases hp
    exact ⟨nofun, nofun⟩
  case cons u us ih =>
    have ⟨hn, hd'⟩ := List.pairwise_cons.mp hd
    refine wp_bind (P := fun here s' => S s s' ∧ (∀ i, Apart u.id i → Q i s s') ∧
      (∀ unit ∈ here, stack.Pending force units s₀ Q S unit s') ∧
      (stack.Stored S u s' ∨ ∃ summary, some (withSummary u summary) = here))
      (wp_mono (h.wp_processUnit (hu u (.head _)) (hs u (.head _))) ?_) ?_
    · rintro (e | _ | unit) s₁ ⟨h₁, hq₁, hr⟩
      case error   => exact ⟨h₁, nofun⟩
      case ok.none => exact ⟨h₁, hq₁, nofun, .inl hr⟩
      case ok.some =>
        obtain ⟨hp, summary, rfl⟩ := hr
        exact ⟨h₁, hq₁, fun _ h => (Option.some.inj h) ▸ hp, .inr ⟨summary, rfl⟩⟩
    · rintro here s₁ ⟨h₁, hq₁, hp₁, hu₁⟩
      have hs₁ : ∀ u' ∈ us, Q u'.id s₀ s₁ :=
        fun u' hu' => (Q _).trans (hs u' (.tail _ hu')) (hq₁ _ (hn u' hu'))
      refine wp_bind (P := fun rest s' => S s s' ∧
        (∀ unit ∈ here.toList ++ rest, stack.Pending force units s₀ Q S unit s') ∧
        ∀ u' ∈ u :: us, stack.Stored S u' s' ∨
          ∃ summary, withSummary u' summary ∈ here.toList ++ rest)
        (wp_mono (ih (fun u' hu' => hu u' (.tail _ hu')) hd' hs₁) ?_) ?_
      · rintro (e | rest) s₂ ⟨h₂, hr⟩
        case error => exact ⟨S.trans h₁ h₂, nofun⟩
        obtain ⟨hp₂, hu₂⟩ := hr rest rfl
        refine ⟨S.trans h₁ h₂, ?_, List.forall_mem_cons.mpr ⟨?_, ?_⟩⟩
        · intro unit hm
          obtain hm | hm := List.mem_append.mp hm
          case inl => exact (hp₁ unit (Option.mem_toList.mp hm)).mono h₂
          case inr => exact hp₂ unit hm
        · refine hu₁.imp (·.mono h₂) fun ⟨summary, he⟩ => ⟨summary, ?_⟩
          exact List.mem_append_left _ (Option.mem_toList.mpr he.symm)
        · exact fun u' hu' => (hu₂ u' hu').imp_right fun ⟨summary, hm⟩ =>
            ⟨summary, List.mem_append_right _ hm⟩
      · rintro rest s₂ ⟨h₂, hp₂, hu₂⟩
        refine wp_done fun s' hs' => ⟨S.trans h₂ (h.env_own hs'), fun pending he => ?_⟩
        cases he
        refine ⟨fun unit hm => (hp₂ unit hm).mono (h.env_own hs'), fun u' hu' => ?_⟩
        exact (hu₂ u' hu').imp_left (·.mono (h.env_own hs'))

-- When the sync of a file succeeds, it has stored all units of the file, and at last it has deleted
-- the stale ones.
theorem Conduct.wp_syncFile {filePath : String} {stored : Option String}
    (hp : stack.parser.distillFile filePath stored false = .ok units)
    (hi : stored.getD filePath = identity) (hd : units.Pairwise fun u v => Apart u.id v.id)
    (hs : ∀ i, Q i s₀ s) : (stack.syncFile force filePath stored).wp R G
      (fun r s' => S s s' ∧ (r = .ok () → (∀ u ∈ units, stack.Stored S u s') ∧ ∃ t,
        (deleteStaleUnits stack.embedder identity (units.map (·.id)) t).outcome = .ok () ∧
        R (deleteStaleUnits stack.embedder identity (units.map (·.id)) t).state s')) s := by
  have hr : ∀ s : World F, (rejectDirtyIncremental s).state = s := by
    intro s
    unfold rejectDirtyIncremental
    split <;> rfl
  refine wp_bind (P := fun _ s' => ∀ i, Q i s s') (wp_call fun s₁ h₁ => ?_) fun _ s₁ h₁ => ?_
  · rw [hr]
    refine ⟨h.idle s₁, fun s₂ h₂ => ?_⟩
    have hq : ∀ i, Q i s s₂ := fun i => (Q i).trans (h.env i _ _ h₁) (h.env i _ _ h₂)
    cases (rejectDirtyIncremental s₁).outcome
    case error => exact ⟨h.quiet "" _ _ (hq ""), nofun⟩
    case ok    => exact hq
  rw [hp]
  show wp _ _ (processUnits stack force units >>= _) _ _
  have hs₁ := h.quiet "" _ _ (h₁ "")
  refine wp_bind (P := fun pending s' => S s s' ∧
    (∀ unit ∈ pending, stack.Pending force units s₀ Q S unit s') ∧
    ∀ u ∈ units, stack.Stored S u s' ∨ ∃ summary, withSummary u summary ∈ pending)
    (wp_mono (h.wp_processUnits (fun _ => id) hd fun u _ => (Q u.id).trans (hs _) (h₁ _)) ?_) ?_
  · rintro (e | pending) s₂ ⟨h₂, hr⟩
    case error => exact ⟨S.trans hs₁ h₂, nofun⟩
    case ok    => exact ⟨S.trans hs₁ h₂, hr pending rfl⟩
  rintro pending s₂ ⟨h₂, hp₂, hu₂⟩
  refine wp_bind (P := fun _ s' => S s s' ∧ ∀ u ∈ units, stack.Stored S u s')
    (wp_mono (wp_embedAndUpsert (S := S) (J := stack.Pending force units s₀ Q S)
      (fun _ _ => h.env_own) h.own (fun _ _ _ => Pending.mono) h.upsertVec h.ensure h.embed
      hp₂) ?_) ?_
  · rintro (e | _) s₃ ⟨h₃, hr⟩
    case error => exact ⟨S.trans h₂ h₃, nofun⟩
    refine ⟨S.trans h₂ h₃, fun u hu => ?_⟩
    obtain hst | ⟨summary, hm⟩ := hu₂ u hu
    case inl => exact hst.mono h₃
    case inr =>
      obtain ⟨vec, t, _, _, ho, ht⟩ := hr rfl _ hm
      exact ⟨summary, some vec, t, ho, ht⟩
  rintro _ s₃ ⟨h₃, hu₃⟩
  rw [hi]
  refine wp_call fun t ht => ?_
  have hst : ∀ u ∈ units, stack.Stored S u t := fun u hu => (hu₃ u hu).mono (h.env_own ht)
  have hg := h.delete t hst
  refine ⟨hg, fun s' hs' => ⟨?_, fun ho => ⟨fun u hu => ?_, t, ho, hs'⟩⟩⟩
  · exact S.trans h₃ (S.trans (h.env_own ht) (S.trans (h.own _ _ hg) (h.env_own hs')))
  · exact (hst u hu).mono (S.trans (h.own _ _ hg) (h.env_own hs'))

end Conduct
end Sync

section Path

variable {stack : IndexStack F} {force : Bool} {filePath : String} {stored : Option String} {e : Exn}

-- A file that cannot be parsed ends its sync before any of its rows is touched.
theorem wp_syncFile_of_error (force : Bool) (hp : stack.parser.distillFile filePath stored false = .error e)
    (idle : ∀ s, G s s) : (stack.syncFile force filePath stored).wp R G
      (fun r s' => R s s' ∧ ∃ e, r = .error e) s := by
  have hr : ∀ s : World F, (rejectDirtyIncremental s).state = s := by
    intro s
    unfold rejectDirtyIncremental
    split <;> rfl
  refine wp_bind (P := fun _ s' => R s s') (wp_call fun s₁ h₁ => ?_) fun _ s₁ h₁ => ?_
  · rw [hr]
    refine ⟨idle s₁, fun s₂ h₂ => ?_⟩
    cases (rejectDirtyIncremental s₁).outcome
    case error => exact ⟨R.trans h₁ h₂, _, rfl⟩
    case ok    => exact R.trans h₁ h₂
  · rw [hp]
    exact wp_done fun s' hs' => ⟨R.trans h₁ hs', _, rfl⟩

-- The units that the sync of a path parses, and the stored path they get.
def parsesAt (stack : IndexStack F) (path : String) (stored : Option String)
    (units : List KnowledgeUnit) : Prop :=
  stack.storedPath path = .ok stored ∧ stack.parser.distillFile path stored false = .ok units

theorem parsesAt_unique {path : String} {stored stored' : Option String}
    {us us' : List KnowledgeUnit} (h : stack.parsesAt path stored us)
    (h' : stack.parsesAt path stored' us') : stored = stored' ∧ us = us' := by
  obtain ⟨hs, hd⟩ := h
  obtain ⟨hs', hd'⟩ := h'
  cases hs.symm.trans hs'
  cases hd.symm.trans hd'
  exact ⟨rfl, rfl⟩

theorem wp_syncPath {path : String} {Q : Except Exn Unit → World F → Prop} (idle : ∀ s, G s s)
    (env : ∀ s', R s s' → ∀ e, Q (.error e) s')
    (file : ∀ stored units, stack.parsesAt path stored units →
      (stack.syncFile force path stored).wp R G Q s) : (stack.syncPath force path).wp R G Q s := by
  unfold syncPath
  cases hs : stack.storedPath path
  case error e => exact wp_done fun s' h' => env s' h' e
  case ok stored =>
    show wp _ _ (stack.syncFile force path stored) _ _
    cases hd : stack.parser.distillFile path stored false
    case ok units => exact file stored units ⟨hs, hd⟩
    case error e  =>
      refine wp_mono (wp_syncFile_of_error force hd idle) ?_
      rintro r s' ⟨hr, e', rfl⟩
      exact env s' hr e'

end Path

section Project

variable {stack : IndexStack F} {indexAll : Bool} {s' : World F}

theorem reembedIfDirty_of_clean (h : s.dirty = false) :
    stack.reembedIfDirty indexAll s = .ok () s := by
  unfold reembedIfDirty
  rw [EStateM.get_bind, h]
  rfl

-- The workers start in a session whose embedder is the one of the vectors.
theorem reembedIfDirty_cases (h : stack.reembedIfDirty indexAll s = .ok () s') :
    s.dirty = false ∧ s' = s ∨
      s.dirty ∧ indexAll ∧ (reembedAllUnits stack.embedder).run s = .ok () s' := by
  cases hd : s.dirty
  case false =>
    rw [reembedIfDirty_of_clean hd] at h
    exact .inl ⟨rfl, by cases h; rfl⟩
  case true =>
    unfold reembedIfDirty at h
    rw [EStateM.get_bind, hd] at h
    cases hi : indexAll <;> rw [hi] at h
    case false => cases h
    case true  => exact .inr ⟨rfl, rfl, h⟩

end Project
end IndexStack
