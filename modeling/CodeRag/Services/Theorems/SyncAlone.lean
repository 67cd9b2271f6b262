import CodeRag.Services.Theorems.SyncFile
import CodeRag.Storage.Theorems.Ready
import CodeRag.Parsers.Theorems.TreeSitter

-- What the sync of one file does when it is the only task.

-- A call that does not embed the text of a unit.
def Call.Prelim : Call → Prop
  | summarize ..  => True
  | aembed texts  => texts = [EMBEDDING_PROBE_TEXT]

namespace World

variable {F : Floats} {w w' w'' : World F} {m : String} {P : Call → Prop}

-- The calls made from one state to another satisfy a predicate.
def Calls (P : Call → Prop) (w w' : World F) : Prop :=
  ∃ cs, w'.calls = w.calls ++ cs ∧ ∀ c ∈ cs, P c

theorem Calls.of_eq (h : w'.calls = w.calls) : w.Calls P w' :=
  ⟨[], by simp [h], nofun⟩

theorem Calls.trans (h : w.Calls P w') (h' : w'.Calls P w'') : w.Calls P w'' := by
  obtain ⟨cs, hc, hp⟩ := h
  obtain ⟨cs', hc', hp'⟩ := h'
  exact ⟨cs ++ cs', by rw [hc', hc, List.append_assoc],
    fun c hm => (List.mem_append.mp hm).elim (hp c) (hp' c)⟩

theorem Calls.single {c : Call} (h : w'.calls = w.calls ++ [c]) (hc : P c) : w.Calls P w' :=
  ⟨[c], h, fun _ hm => List.mem_singleton.mp hm ▸ hc⟩

theorem Reads.calls (h : w.Reads w') : w.Calls P w' := by
  obtain ⟨f, rfl⟩ := h
  exact .of_eq rfl

theorem Binds.calls_probe (h : w.Binds m w') (hp : P (.aembed [EMBEDDING_PROBE_TEXT])) :
    w.Calls P w' := by
  have ⟨n, hn⟩ := h.calls
  exact ⟨_, hn, fun c hc => List.eq_of_mem_replicate hc ▸ hp⟩

end World

namespace Conn

variable {F : Floats} {w w₁ w' : World F} {embedder : Embedder F} {u : KnowledgeUnit}

-- Storing a unit without a vector.
theorem Upserts.of_none {r : Except Exn Unit}
    (h : Upserts embedder u none w w₁ r w') : w'.calls = w.calls ∧ w'.llmFaults = w.llmFaults ∧
      (∀ i, i ≠ u.id → w'.db.units.find? i = w.db.units.find? i) ∧ ∀ i, w'.db.vec? i = w.db.vec? i := by
  have hw : w₁ = w := h.start
  subst hw
  obtain ⟨f, hf⟩ := h.frame
  refine ⟨by rw [hf], by rw [hf], fun i hi => ?_, fun i => ?_⟩
  · obtain hu | hu := h.stores.units
    · rw [hu]
    · rw [hu, Table.find?_insert, if_neg (by exact hi)]
  · obtain hv | ⟨_, v, hv, _⟩ := h.stores.vec
    · exact hv i
    · cases hv

end Conn

namespace IndexStack

open Conn Coroutine EStateM World

variable {F : Floats} {stack : IndexStack F} {force : Bool} {u : KnowledgeUnit} {s s' w w' : World F}
variable {us units : List KnowledgeUnit}

section Process

-- The summary that a unit gets in a state.
def Chosen (stack : IndexStack F) (force : Bool) (u : KnowledgeUnit) (s : World F)
    (summary : Option String) : Prop :=
  ∃ existing : Option KnowledgeUnit, existing.map (·.toUnitRow) = s.db.units.find? u.id ∧
    summary = if shouldDistillUnit existing u.popRawCode force then
        (answer stack u.rawCode u.name s).or (existing.bind (·.summary))
      else existing.bind (·.summary)

-- How one unit is processed, up to its embedding.
structure Processed (stack : IndexStack F) (force : Bool) (u : KnowledgeUnit) (s : World F)
    (r : Except Exn (Option KnowledgeUnit)) (s' : World F) : Prop where
  calls   : s.Calls Call.Prelim s'
  llm     : ∃ k, s'.llmFaults = fun n => s.llmFaults (n + k)
  units   : ∀ i, i ≠ u.id → s'.db.units.find? i = s.db.units.find? i
  vec     : ∀ i, s'.db.vec? i = s.db.vec? i
  pending : ∀ unit, r = .ok (some unit) → ∃ summary, unit = withSummary u summary ∧
    Chosen stack force u s summary
  stored  : r = .ok none → (s.db.vec? u.id).isSome ∧ ∃ summary,
    s'.db.units.find? u.id = some (withSummary u summary).toUnitRow ∧ Chosen stack force u s summary

-- A unit that could not be processed.
theorem Processed.error {e : Exn} (hc : s.Calls Call.Prelim s')
    (hl : ∃ k, s'.llmFaults = fun n => s.llmFaults (n + k)) (hu : s'.db.units = s.db.units)
    (hv : ∀ i, s'.db.vec? i = s.db.vec? i) : Processed stack force u s (.error e) s' where
  calls   := hc
  llm     := hl
  units   := fun _ _ => by rw [hu]
  vec     := hv
  pending := nofun
  stored  := nofun

private theorem newSummary_post {existing : Option KnowledgeUnit} :
    (stack.newSummary force u.popRawCode existing u.rawCode).run.post (fun r s' =>
      s.Calls Call.Prelim s' ∧ (∃ k, s'.llmFaults = fun n => s.llmFaults (n + k)) ∧ s'.db = s.db ∧
      r = .ok (if shouldDistillUnit existing u.popRawCode force then
        (answer stack u.rawCode u.name s).or (existing.bind (·.summary))
      else existing.bind (·.summary))) s := by
  unfold newSummary
  split
  case isTrue =>
    rw [Coroutine.run_call]
    refine post_of_ok (distillUnitSummary_eq stack) ⟨.single rfl ?_, ⟨1, rfl⟩, rfl, rfl⟩
    exact trivial
  case isFalse => exact post_pure ⟨.of_eq rfl, ⟨0, rfl⟩, rfl, rfl⟩

theorem processUnit_post : (stack.processUnit force u).run.post (Processed stack force u s) s := by
  unfold processUnit
  simp only [Coroutine.run_bind, Coroutine.run_call, KnowledgeUnit.popRawCode_id]
  refine post_bind getUnit_post ?_ fun e s₁ ⟨hr, _⟩ => ?_
  case refine_2 =>
    obtain ⟨f, rfl⟩ := hr
    exact .error (.of_eq rfl) ⟨0, rfl⟩ rfl fun _ => rfl
  rintro existing _ ⟨⟨f, rfl⟩, he⟩
  have he := he existing rfl
  refine post_bind newSummary_post ?_ fun e s₂ ⟨_, _, _, hn⟩ => by cases hn
  rintro summary s₂ ⟨hc₂, hl₂, hdb₂, hsum⟩
  have hchosen : Chosen stack force u s summary := ⟨existing, he, Except.ok.inj hsum⟩
  have hc₂ : s.Calls Call.Prelim s₂ := .trans (.of_eq rfl) hc₂
  refine post_bind hasEmbedding_post ?_ fun e s₃ ⟨hb, _⟩ => ?_
  case refine_2 =>
    refine .error (hc₂.trans (hb.calls_probe rfl)) (hb.llmFaults ▸ hl₂) ?_ fun i => ?_
    · rw [hb.db.units, hdb₂]
    · rw [hb.db.vec?, hdb₂]
  rintro hasVec s₃ ⟨hb, hv₂⟩
  have hv₂ := hv₂ hasVec rfl
  have hc₃ := hc₂.trans (hb.calls_probe rfl)
  have hl₃ : ∃ k, s₃.llmFaults = fun n => s.llmFaults (n + k) := hb.llmFaults ▸ hl₂
  have hu₃ : s₃.db.units = s.db.units := by rw [hb.db.units, hdb₂]
  have hv₃ : ∀ i, s₃.db.vec? i = s.db.vec? i := fun i => by rw [hb.db.vec?, hdb₂]
  show EStateM.post (Coroutine.run (if unitNeedsEmbedding (withSummary u summary) existing hasVec then
      pure (some (withSummary u summary))
    else call (upsertUnit stack.embedder (withSummary u summary) none) >>= fun _ => pure none)) _ s₃
  split
  case isTrue =>
    refine post_pure ⟨hc₃, hl₃, fun i _ => by rw [hu₃], hv₃, fun unit h => ?_, nofun⟩
    cases h
    exact ⟨summary, rfl, hchosen⟩
  case isFalse hneed =>
    rw [Coroutine.run_bind, Coroutine.run_call]
    refine post_bind upsertUnit_post ?_ fun e s₄ ⟨_, hx⟩ => ?_
    case refine_2 =>
      have ⟨hc, hl, hu, hv⟩ := hx.of_none
      exact ⟨hc₃.trans (.of_eq hc), hl ▸ hl₃, fun i hi => by rw [hu i hi, hu₃],
        fun i => by rw [hv, hv₃], nofun, nofun⟩
    case refine_1 =>
      rintro _ s₄ ⟨_, hx⟩
      have ⟨hc, hl, hu, hv⟩ := hx.of_none
      refine post_pure ⟨hc₃.trans (.of_eq hc), hl ▸ hl₃, fun i hi => by rw [hu i hi, hu₃],
        fun i => by rw [hv, hv₃], nofun, fun _ => ⟨?_, summary, ?_, hchosen⟩⟩
      · obtain ⟨_, _, _, _, hh⟩ := unitNeedsEmbedding_eq_false.mp (Bool.not_eq_true _ ▸ hneed)
        rw [←hdb₂, ←hv₂, hh]
      · rw [(hx.ok rfl).left]
        exact Table.find?_insert_self

-- The summary that a unit got in some later state.
def ChosenLater (stack : IndexStack F) (force : Bool) (u : KnowledgeUnit) (s : World F)
    (summary : Option String) : Prop :=
  ∃ t k, (t.llmFaults = fun n => s.llmFaults (n + k)) ∧ Chosen stack force u t summary

theorem Chosen.later {summary : Option String} {k : Nat} (h : Chosen stack force u s' summary)
    (hl : s'.llmFaults = fun n => s.llmFaults (n + k)) : ChosenLater stack force u s summary :=
  ⟨s', k, hl, h⟩

theorem ChosenLater.of_later {summary : Option String} (h : ChosenLater stack force u s' summary)
    (hl : ∃ k, s'.llmFaults = fun n => s.llmFaults (n + k)) : ChosenLater stack force u s summary := by
  obtain ⟨t, k, ht, hc⟩ := h
  obtain ⟨k', hk⟩ := hl
  exact ⟨t, k + k', by simp only [ht, hk, Nat.add_assoc], hc⟩

-- How the units of a file are processed, up to their embedding.
structure ProcessedAll (stack : IndexStack F) (force : Bool) (us : List KnowledgeUnit) (s : World F)
    (r : Except Exn (List KnowledgeUnit)) (s' : World F) : Prop where
  calls   : s.Calls Call.Prelim s'
  llm     : ∃ k, s'.llmFaults = fun n => s.llmFaults (n + k)
  units   : ∀ i, i ∉ us.map (·.id) → s'.db.units.find? i = s.db.units.find? i
  vec     : ∀ i, s'.db.vec? i = s.db.vec? i
  sublist : ∀ pending, r = .ok pending → (pending.map (·.id)).Sublist (us.map (·.id))
  pending : ∀ pending, r = .ok pending → ∀ unit ∈ pending, ∃ u ∈ us, ∃ summary,
    unit = withSummary u summary ∧ ChosenLater stack force u s summary
  stored  : ∀ pending, r = .ok pending → ∀ u ∈ us, u.id ∈ pending.map (·.id) ∨
    (s.db.vec? u.id).isSome ∧ ∃ summary, ChosenLater stack force u s summary ∧
      s'.db.units.find? u.id = some (withSummary u summary).toUnitRow

theorem processUnits_post (hd : (us.map (·.id)).Nodup) :
    (stack.processUnits force us).run.post (ProcessedAll stack force us s) s := by
  induction us generalizing s
  case nil =>
    refine post_pure ⟨.of_eq rfl, ⟨0, rfl⟩, fun _ _ => rfl, fun _ => rfl, fun pending h => ?_,
      fun pending h => ?_, fun _ _ => nofun⟩
    all_goals cases h
    · exact .refl _
    · exact nofun
  case cons u us ih =>
    have ⟨hn, hd'⟩ := List.nodup_cons.mp hd
    unfold processUnits
    rw [Coroutine.run_bind]
    have hne : ∀ {i}, i ∉ (u :: us).map (·.id) → i ≠ u.id ∧ i ∉ us.map (·.id) := fun h => by
      simpa using h
    refine post_bind processUnit_post (fun here s₁ h₁ => ?_) fun e s₁ h₁ => ?_
    case refine_2 =>
      exact ⟨h₁.calls, h₁.llm, fun i hi => h₁.units i (hne hi).left, h₁.vec, nofun, nofun, nofun⟩
    rw [Coroutine.run_bind]
    have hl : ∀ {s₂ : World F}, (∃ k, s₂.llmFaults = fun n => s₁.llmFaults (n + k)) →
        ∃ k, s₂.llmFaults = fun n => s.llmFaults (n + k) := by
      rintro s₂ ⟨k, hk⟩
      obtain ⟨k', hk'⟩ := h₁.llm
      exact ⟨k + k', by simp only [hk, hk', Nat.add_assoc]⟩
    refine post_bind (ih hd') (fun rest s₂ h₂ => ?_) fun e s₂ h₂ => ?_
    case refine_2 =>
      exact ⟨h₁.calls.trans h₂.calls, hl h₂.llm,
        fun i hi => (h₂.units i (hne hi).right).trans (h₁.units i (hne hi).left),
        fun i => (h₂.vec i).trans (h₁.vec i), nofun, nofun, nofun⟩
    refine post_pure ⟨h₁.calls.trans h₂.calls, hl h₂.llm,
      fun i hi => (h₂.units i (hne hi).right).trans (h₁.units i (hne hi).left),
      fun i => (h₂.vec i).trans (h₁.vec i), fun pending hp => ?_, fun pending hp unit hm => ?_,
      fun pending hp u' hu' => ?_⟩
    all_goals cases hp
    · rw [List.map_append]
      cases here
      case none => exact (h₂.sublist rest rfl).cons _
      case some unit =>
        obtain ⟨summary, rfl, _⟩ := h₁.pending unit rfl
        exact (h₂.sublist rest rfl).cons_cons _
    · obtain hm | hm := List.mem_append.mp hm
      case inl =>
        obtain rfl := Option.mem_toList.mp hm
        obtain ⟨summary, rfl, hc⟩ := h₁.pending unit rfl
        exact ⟨u, .head _, summary, rfl, hc.later (k := 0) rfl⟩
      case inr =>
        obtain ⟨u', hu', summary, he, hc⟩ := h₂.pending rest rfl unit hm
        exact ⟨u', .tail _ hu', summary, he, hc.of_later h₁.llm⟩
    · rw [List.map_append]
      obtain rfl | hu' := List.mem_cons.mp hu'
      case inl =>
        cases here
        case some unit =>
          obtain ⟨summary, rfl, _⟩ := h₁.pending unit rfl
          exact .inl (by simp)
        case none =>
          obtain ⟨hv, summary, hf, hc⟩ := h₁.stored rfl
          exact .inr ⟨hv, summary, hc.later (k := 0) rfl, (h₂.units _ hn).trans hf⟩
      case inr =>
        obtain hm | ⟨hv, summary, hc, hf⟩ := h₂.stored rest rfl u' hu'
        · exact .inl (List.mem_append_right _ hm)
        · exact .inr ⟨h₁.vec _ ▸ hv, summary, hc.of_later h₁.llm, hf⟩

end Process
section Embed

variable {embedder : Embedder F}

theorem upsertVectors_post {us : List (KnowledgeUnit × List F)} (hb : s.bound)
    (hd : (us.map (·.1.id)).Nodup) : (upsertVectors embedder us).run.post (fun r s' => r = .ok () →
      s'.bound ∧ s'.calls = s.calls ∧
      (∀ i, i ∉ us.map (·.1.id) → s'.db.units.find? i = s.db.units.find? i ∧
        s'.db.vec? i = s.db.vec? i) ∧
      ∀ u ∈ us, s'.db.units.find? u.1.id = some u.1.toUnitRow ∧ s'.db.vec? u.1.id = some (F.cast u.2)) s := by
  induction us generalizing s
  case nil => exact post_pure fun _ => ⟨hb, rfl, fun _ _ => ⟨rfl, rfl⟩, List.forall_mem_nil _⟩
  case cons u us ih =>
    obtain ⟨hn, hd'⟩ := List.nodup_cons.mp hd
    unfold upsertVectors
    rw [Coroutine.run_bind, Coroutine.run_call]
    refine post_bind upsertUnit_post ?_ fun _ _ _ h => by cases h
    rintro _ s₁ ⟨w₁, hx⟩
    have hw : w₁ = s := by
      rw [hx.start, Option.isSome_some, if_pos rfl, ensure_of_bound hb]
      rfl
    subst hw
    obtain ⟨f, hf⟩ := hx.frame
    obtain ⟨hu, hv⟩ := hx.ok rfl
    have hv := hv u.2 rfl
    refine post_mono (ih (by rw [hf]; exact hb) hd') fun r s' h hr => ?_
    obtain ⟨hb', hc, hframe, hus⟩ := h hr
    refine ⟨hb', by rw [hc, hf], fun i hi => ?_, List.forall_mem_cons.mpr ⟨?_, hus⟩⟩
    · obtain ⟨hi₁, hi₂⟩ : i ≠ u.1.id ∧ i ∉ us.map (·.1.id) := by simpa using hi
      rw [(hframe i hi₂).left, (hframe i hi₂).right, hu, hv, if_neg hi₁, Table.find?_insert,
        if_neg (by exact hi₁)]
      exact ⟨rfl, rfl⟩
    · rw [(hframe _ hn).left, (hframe _ hn).right, hu, hv, if_pos rfl]
      exact ⟨Table.find?_insert_self, rfl⟩

def textsOf (units : List KnowledgeUnit) : List String :=
  units.map fun u => unitEmbeddingText u.toUnitRow

-- The units are stored, each one with the vector that the embedder returned for its text in the batch
-- of the unit.
structure StoredWith (embedder : Embedder F) (chunks : List (List KnowledgeUnit)) (s' : World F) :
    Prop where
  units   : ∀ chunk ∈ chunks, ∀ u ∈ chunk, s'.db.units.find? u.id = some u.toUnitRow
  vectors : ∀ chunk ∈ chunks, ∃ dim vectors, embedder.aembed dim (textsOf chunk) = .ok vectors ∧
    vectors.length = chunk.length ∧ ∀ u ∈ chunk.zip vectors, s'.db.vec? u.1.id = some (F.cast u.2)

theorem embedBatches_post {chunks : List (List KnowledgeUnit)} (hb : s.bound)
    (hd : (chunks.flatten.map (·.id)).Nodup) : (embedBatches embedder chunks).run.post (fun r s' =>
      r = .ok () → s'.calls = s.calls ++ chunks.map (fun chunk => .aembed (textsOf chunk)) ∧
      (∀ i, i ∉ chunks.flatten.map (·.id) → s'.db.units.find? i = s.db.units.find? i ∧
        s'.db.vec? i = s.db.vec? i) ∧ StoredWith embedder chunks s') s := by
  induction chunks generalizing s
  case nil => exact post_pure fun _ => ⟨by simp, fun _ _ => ⟨rfl, rfl⟩, List.forall_mem_nil _,
    List.forall_mem_nil _⟩
  case cons chunk chunks ih =>
    rw [List.flatten_cons, List.map_append] at hd
    obtain ⟨hd₁, hd₂, hdis⟩ := List.nodup_append'.mp hd
    unfold embedBatches
    rw [Coroutine.run_bind, Coroutine.run_call]
    refine post_bind aembed_post ?_ fun _ _ _ h => by cases h
    rintro vectors _ ⟨⟨f, rfl⟩, hv⟩
    have hv := hv vectors rfl
    split
    case isTrue =>
      intro h
      cases h
    case isFalse hl =>
      have hl : vectors.length = chunk.length := not_not.mp hl
      have hids : (chunk.zip vectors).map (·.1.id) = chunk.map (·.id) := by
        have hcomp : (fun x : KnowledgeUnit × List F => x.1.id) =
            (fun u : KnowledgeUnit => u.id) ∘ Prod.fst := rfl
        rw [hcomp, ←List.map_map, List.map_fst_zip hl.ge]
      rw [Coroutine.run_bind]
      refine post_bind (upsertVectors_post hb (hids ▸ hd₁)) ?_ fun _ _ _ h => by cases h
      rintro _ s₂ h₂
      obtain ⟨hb₂, hc₂, hframe₂, hus₂⟩ := h₂ rfl
      refine post_mono (ih hb₂ hd₂) fun r s' h hr => ?_
      obtain ⟨hc, hframe, hst⟩ := h hr
      -- The later batches do not touch the units of this one.
      have hkeep : ∀ u ∈ chunk, s'.db.units.find? u.id = s₂.db.units.find? u.id ∧
          s'.db.vec? u.id = s₂.db.vec? u.id :=
        fun u hu => hframe _ (hdis (List.mem_map_of_mem hu))
      refine ⟨by rw [hc, hc₂]; simp [textsOf], fun i hi => ?_, ?_, ?_⟩
      · rw [List.flatten_cons, List.map_append, List.mem_append, not_or] at hi
        obtain ⟨hi₁, hi₂⟩ := hframe₂ i (hids ▸ hi.left)
        exact ⟨(hframe i hi.right).left.trans hi₁, (hframe i hi.right).right.trans hi₂⟩
      · refine List.forall_mem_cons.mpr ⟨fun u hu => ?_, hst.units⟩
        have hz : u ∈ (chunk.zip vectors).map Prod.fst := by rwa [List.map_fst_zip hl.ge]
        obtain ⟨u', hu', rfl⟩ := List.mem_map.mp hz
        exact (hkeep _ hu).left.trans (hus₂ u' hu').left
      · refine List.forall_mem_cons.mpr ⟨⟨_, vectors, hv, hl, fun u hu => ?_⟩, hst.vectors⟩
        exact (hkeep _ (List.of_mem_zip hu).left).right.trans (hus₂ u hu).right

theorem embedAndUpsert_post (hd : (units.map (·.id)).Nodup) :
    (embedAndUpsert embedder units).run.post (fun r s' => r = .ok () → ∃ s₁, s.Calls Call.Prelim s₁ ∧
      s'.calls = s₁.calls ++
        (batches EMBEDDING_BATCH_SIZE units).map (fun chunk => .aembed (textsOf chunk)) ∧
      (∀ i, i ∉ units.map (·.id) → s'.db.units.find? i = s.db.units.find? i ∧
        s'.db.vec? i = s.db.vec? i) ∧
      StoredWith embedder (batches EMBEDDING_BATCH_SIZE units) s') s := by
  unfold embedAndUpsert
  split
  case isTrue hu =>
    obtain rfl := List.isEmpty_iff.mp hu
    exact post_pure fun _ => ⟨s, .of_eq rfl, by simp [batches, batches.go],
      fun _ _ => ⟨rfl, rfl⟩, List.forall_mem_nil _, List.forall_mem_nil _⟩
  case isFalse =>
    rw [Coroutine.run_bind, Coroutine.run_call]
    refine post_bind ensureEmbeddingsBound_post ?_ fun _ _ _ h => by cases h
    rintro _ s₁ ⟨hb, hbound⟩
    have hd' : ((batches EMBEDDING_BATCH_SIZE units).flatten.map (·.id)).Nodup := by
      rwa [batches_flatten]
    refine post_mono (embedBatches_post (hbound _ rfl) hd') fun r s' h hr => ?_
    obtain ⟨hc, hframe, hst⟩ := h hr
    rw [batches_flatten] at hframe
    refine ⟨s₁, hb.calls_probe rfl, hc, fun i hi => ?_, hst⟩
    rw [(hframe i hi).left, (hframe i hi).right, hb.db.units, hb.db.vec?]
    exact ⟨rfl, rfl⟩

end Embed
section Delete

variable {embedder : Embedder F} {path : String} {ids : List String}

theorem isStale_of_mem {row : UnitRow} (h : row.id ∈ ids) : isStale path ids row = false := by
  simp [isStale, h]

theorem Deletes.vec_of_units {stale : UnitRow → Bool} {db db' : Db F} (h : db.Deletes stale db')
    (hu : db'.units = db.units.delete stale) (i : String) :
    db'.vec? i = if db.unitIdWhere stale i then none else db.vec? i := by
  obtain hsame | ⟨_, hv⟩ := h.units
  case inr => exact hv i
  case inl =>
    have hnone : db.unitIdWhere stale i = false := by
      cases hf : db.units.find? i
      case none     => simp [Db.unitIdWhere, hf]
      case some row =>
        have hm : row ∈ db.units.delete stale := hu ▸ hsame ▸ Table.mem_of_find? hf
        simp [Db.unitIdWhere, hf, (Table.mem_delete.mp hm).right]
    rw [if_neg (by simp [hnone])]
    exact (h.vec i).resolve_right fun hn => by simp [hnone] at hn

-- Units that are still there keep their rows and vectors, and the others at the path are deleted.
theorem deleteStaleUnits_ok : (deleteStaleUnits embedder path ids).post (fun r s' => r = .ok () →
    s.Calls Call.Prelim s' ∧
    (∀ i ∈ ids, s'.db.units.find? i = s.db.units.find? i ∧ s'.db.vec? i = s.db.vec? i) ∧
    ∀ i, i ∉ ids → s'.db.units.find? i = (s.db.units.find? i).filter (·.path ≠ path) ∧
      s'.db.vec? i = if (s.db.units.find? i).any (·.path = path) then none else s.db.vec? i) s := by
  refine post_mono deleteStaleUnits_post ?_
  rintro r s' ⟨w₁, f, _, hb, hf, hdel, hok⟩ hr
  have hu : s'.db.units = s.db.units.delete (isStale path ids) := hok hr
  have hv := Deletes.vec_of_units hdel (hb.db.units ▸ hu)
  simp only [Db.unitIdWhere, hb.db.units, hb.db.vec?] at hv
  have hid : ∀ {i row}, s.db.units.find? i = some row → row.id = i := Table.key_of_find?
  have hc : s.Calls Call.Prelim w₁ := hb.calls_probe rfl
  refine ⟨hc.trans (.of_eq (by rw [hf])), fun i hi => ?_, fun i hi => ?_⟩
  all_goals
    rw [hv i, hu, Table.find?_delete]
    cases hfind : s.db.units.find? i
  case refine_1.none => simp
  case refine_2.none => simp
  case refine_1.some row =>
    have hst : isStale path ids row = false := isStale_of_mem (hid hfind ▸ hi)
    simp [hst]
  case refine_2.some row =>
    have hst : isStale path ids row = decide (row.path = path) := by
      simp [isStale, hid hfind, hi]
    simp [hst, Option.filter]

end Delete

-- A sync of a file that has returned. The units in `pending` are the ones that were embedded.
structure Ran (stack : IndexStack F) (force : Bool) (units : List KnowledgeUnit) (identity : String)
    (w w' : World F) (pending : List KnowledgeUnit) : Prop where
  sublist  : (pending.map (·.id)).Sublist (units.map (·.id))
  embedded : ∀ unit ∈ pending, ∃ u ∈ units, ∃ summary, unit = withSummary u summary ∧
    ChosenLater stack force u w summary ∧ w'.db.units.find? u.id = some unit.toUnitRow
  rows     : ∀ u ∈ units, ∃ summary, ChosenLater stack force u w summary ∧
    w'.db.units.find? u.id = some (withSummary u summary).toUnitRow
  others   : ∀ i, i ∉ units.map (·.id) →
    w'.db.units.find? i = (w.db.units.find? i).filter (·.path ≠ identity) ∧
    w'.db.vec? i = if (w.db.units.find? i).any (·.path = identity) then none else w.db.vec? i
  vec      : ∀ u ∈ units, u.id ∉ pending.map (·.id) →
    w'.db.vec? u.id = w.db.vec? u.id ∧ (w.db.vec? u.id).isSome
  vectors  : ∀ chunk ∈ batches EMBEDDING_BATCH_SIZE pending, ∃ dim vectors,
    stack.embedder.aembed dim (textsOf chunk) = .ok vectors ∧ vectors.length = chunk.length ∧
    ∀ u ∈ chunk.zip vectors, w'.db.vec? u.1.id = some (F.cast u.2)
  calls    : ∃ pre post, w'.calls = w.calls ++ pre ++
      (batches EMBEDDING_BATCH_SIZE pending).map (fun chunk => .aembed (textsOf chunk)) ++ post ∧
    ∀ c ∈ pre ++ post, c.Prelim

theorem rejectDirtyIncremental_post :
    (rejectDirtyIncremental (F := F)).post (fun _ s' => s' = s) s := by
  unfold rejectDirtyIncremental EStateM.post
  dsimp only
  split <;> rfl

theorem syncFile_post {filePath : String} {stored : Option String}
    (hp : stack.parser.distillFile filePath stored false = .ok units)
    (hd : (units.map (·.id)).Nodup) : (stack.syncFile force filePath stored).run.post (fun r w' =>
      r = .ok () → ∃ pending, Ran stack force units (stored.getD filePath) w w' pending) w := by
  unfold syncFile
  rw [hp, Coroutine.run_bind, Coroutine.run_call]
  refine post_bind rejectDirtyIncremental_post ?_ fun _ _ _ => nofun
  intro _ _ hs
  rw [hs]
  show EStateM.post (Coroutine.run (processUnits stack force units >>= _)) _ _
  rw [Coroutine.run_bind]
  refine post_bind (processUnits_post hd) ?_ fun _ _ _ => nofun
  intro pending s₁ h₁
  have hsub := h₁.sublist pending rfl
  rw [Coroutine.run_bind]
  refine post_bind (embedAndUpsert_post (hd.sublist hsub)) ?_ fun _ _ _ => nofun
  intro _ s₂ h₂
  obtain ⟨s₁', hc₁, hc₂, hframe, hst⟩ := h₂ rfl
  rw [Coroutine.run_call]
  refine post_mono deleteStaleUnits_ok fun r w' h hr => ?_
  have ⟨hc₃, hkeep, hdel⟩ := h hr
  have hmem : ∀ u ∈ units, u.id ∈ units.map (·.id) := fun u hu => List.mem_map_of_mem hu
  have hin : ∀ unit ∈ pending, ∃ chunk ∈ batches EMBEDDING_BATCH_SIZE pending, unit ∈ chunk :=
    fun unit hu => List.mem_flatten.mp (batches_flatten ▸ hu)
  have hpend : ∀ unit ∈ pending, w'.db.units.find? unit.id = some unit.toUnitRow := by
    intro unit hu
    obtain ⟨chunk, hch, hu'⟩ := hin unit hu
    exact (hkeep _ (hsub.subset (List.mem_map_of_mem hu))).left.trans (hst.units chunk hch unit hu')
  refine ⟨pending, hsub, fun unit hu => ?_, fun u hu => ?_, fun i hi => ?_, fun u hu hn => ?_,
    fun chunk hch => ?_, ?_⟩
  · obtain ⟨u, hu', summary, rfl, hc⟩ := h₁.pending pending rfl unit hu
    exact ⟨u, hu', summary, rfl, hc, hpend _ hu⟩
  · have hembed : u.id ∈ pending.map (·.id) → ∃ summary, ChosenLater stack force u w summary ∧
        w'.db.units.find? u.id = some (withSummary u summary).toUnitRow := by
      intro hm
      obtain ⟨unit, hu', hi⟩ := List.mem_map.mp hm
      obtain ⟨u', hu'', summary, rfl, hc⟩ := h₁.pending pending rfl unit hu'
      obtain rfl : u' = u := List.inj_on_of_nodup_map hd hu'' hu hi
      exact ⟨summary, hc, hpend _ hu'⟩
    obtain hm | ⟨_, summary, hc, hf⟩ := h₁.stored pending rfl u hu
    case inl => exact hembed hm
    case inr =>
      by_cases hm : u.id ∈ pending.map (·.id)
      case pos => exact hembed hm
      case neg =>
        exact ⟨summary, hc, ((hkeep _ (hmem u hu)).left.trans (hframe _ hm).left).trans hf⟩
  · have hi' : i ∉ pending.map (·.id) := fun hm => hi (hsub.subset hm)
    have ⟨hu, hv⟩ := hdel i hi
    rw [hu, hv, (hframe i hi').left, (hframe i hi').right, h₁.units i hi, h₁.vec]
    exact ⟨rfl, rfl⟩
  · have hv : w'.db.vec? u.id = w.db.vec? u.id := by
      rw [(hkeep _ (hmem u hu)).right, (hframe _ hn).right, h₁.vec]
    obtain hm | ⟨hs, _⟩ := h₁.stored pending rfl u hu
    · exact (hn hm).elim
    · exact ⟨hv, hs⟩
  · obtain ⟨dim, vectors, ha, hl, hv⟩ := hst.vectors chunk hch
    refine ⟨dim, vectors, ha, hl, fun u hu => ?_⟩
    have hu' : u.1 ∈ pending := by
      rw [←batches_flatten (n := EMBEDDING_BATCH_SIZE) (l := pending)]
      exact List.mem_flatten.mpr ⟨chunk, hch, (List.of_mem_zip hu).left⟩
    exact (hkeep _ (hsub.subset (List.mem_map_of_mem hu'))).right.trans (hv u hu)
  · obtain ⟨pre, hpre, hp₁⟩ := h₁.calls.trans hc₁
    obtain ⟨post, hpost, hp₂⟩ := hc₃
    refine ⟨pre, post, by rw [hpost, hc₂, hpre], fun c hc => ?_⟩
    exact (List.mem_append.mp hc).elim (hp₁ c) (hp₂ c)

end IndexStack
