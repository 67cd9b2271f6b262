import CodeRag.Services.Theorems.Sample
import CodeRag.Services.Theorems.SyncAlone

-- What is stored once a file has been synced, and that syncing it again changes nothing.

namespace IndexStack

open Conn Coroutine EStateM World

variable {F : Floats} {stack : IndexStack F} {force : Bool} {u : KnowledgeUnit} {s w w' : World F}
variable {us units pending : List KnowledgeUnit} {identity filePath : String} {stored : Option String}

-- The units at the path are the parsed ones. All of them have vectors, of which the ones that were
-- written are those of the units in `pending`, batch by batch. Nothing is left of units that were
-- removed, and all else is as it was.
structure Synced (embedder : Embedder F) (units : List KnowledgeUnit) (identity : String)
    (w w' : World F) (pending : List KnowledgeUnit) : Prop where
  complete : ∀ u ∈ units, ∃ summary, (withSummary u summary).toUnitRow ∈ w'.db.units
  exact    : ∀ row ∈ w'.db.units, row.path = identity →
    ∃ u ∈ units, ∃ summary, row = (withSummary u summary).toUnitRow
  vectors  : ∀ u ∈ units, (w'.db.vec? u.id).isSome
  sublist  : (pending.map (·.id)).Sublist (units.map (·.id))
  embedded : ∀ unit ∈ pending, unit.toUnitRow ∈ w'.db.units
  kept     : ∀ u ∈ units, u.id ∉ pending.map (·.id) → w'.db.vec? u.id = w.db.vec? u.id
  written  : ∀ chunk ∈ batches EMBEDDING_BATCH_SIZE pending, ∃ dim vectors,
    embedder.aembed dim (textsOf chunk) = .ok vectors ∧ vectors.length = chunk.length ∧
    ∀ u ∈ chunk.zip vectors, w'.db.vec? u.1.id = some (F.cast u.2)
  calls    : ∃ pre post, w'.calls = w.calls ++ pre ++
      (batches EMBEDDING_BATCH_SIZE pending).map (fun chunk => .aembed (textsOf chunk)) ++ post ∧
    ∀ c ∈ pre ++ post, c.Prelim
  removed  : ∀ row ∈ w.db.units, row.path = identity → row.id ∉ units.map (·.id) →
    w'.db.vec? row.id = none
  rows     : ∀ row, row.path ≠ identity → (row ∈ w'.db.units ↔ row ∈ w.db.units)
  others   : ∀ row ∈ w.db.units, row.path ≠ identity → w'.db.vec? row.id = w.db.vec? row.id
  dangling : ∀ i, i ∉ units.map (·.id) → w.db.units.find? i = none → w'.db.vec? i = w.db.vec? i

theorem Ran.vec_isSome (h : Ran stack force units identity w w' pending) (hu : u ∈ units) :
    (w'.db.vec? u.id).isSome := by
  by_cases hm : u.id ∈ pending.map (·.id)
  case neg =>
    have ⟨hv, hs⟩ := h.vec u hu hm
    rw [hv, hs]
  case pos =>
    obtain ⟨unit, hp, hi⟩ := List.mem_map.mp hm
    rw [←batches_flatten (n := EMBEDDING_BATCH_SIZE) (l := pending)] at hp
    obtain ⟨chunk, hch, hp⟩ := List.mem_flatten.mp hp
    obtain ⟨dim, vectors, _, hl, hv⟩ := h.vectors chunk hch
    have hz : unit ∈ (chunk.zip vectors).map Prod.fst := by rwa [List.map_fst_zip hl.ge]
    obtain ⟨x, hx, rfl⟩ := List.mem_map.mp hz
    rw [←hi, hv x hx]
    rfl

theorem Ran.synced (h : Ran stack force units identity w w' pending)
    (hpath : ∀ u ∈ units, u.path = identity)
    (hown : ∀ u ∈ units, ∀ row ∈ w.db.units, row.id = u.id → row.path = identity) :
    Synced stack.embedder units identity w w' pending := by
  -- The ids of rows at other paths are not those of parsed units.
  have hother : ∀ row ∈ w.db.units, row.path ≠ identity → row.id ∉ units.map (·.id) := by
    intro row hr hp hm
    obtain ⟨u, hu, hi⟩ := List.mem_map.mp hm
    exact hp (hown u hu row hr hi.symm)
  have hparsed : ∀ row ∈ w'.db.units, row.id ∈ units.map (·.id) →
      ∃ u ∈ units, ∃ summary, row = (withSummary u summary).toUnitRow := by
    intro row hr hm
    obtain ⟨u, hu, hi⟩ := List.mem_map.mp hm
    obtain ⟨summary, _, hf⟩ := h.rows u hu
    have hrow : w'.db.units.find? u.id = some row := hi ▸ Table.find?_of_mem hr
    exact ⟨u, hu, summary, Option.some.inj (hrow.symm.trans hf)⟩
  refine ⟨fun u hu => ?_, fun row hr hp => ?_, fun u hu => h.vec_isSome hu, h.sublist,
    fun unit hu => ?_, fun u hu hn => (h.vec u hu hn).left, h.vectors, h.calls,
    fun row hr hp hn => ?_, fun row hp => ⟨fun hr => ?_, fun hr => ?_⟩, fun row hr hp => ?_,
    fun i hi hn => ?_⟩
  · obtain ⟨summary, _, hf⟩ := h.rows u hu
    exact ⟨summary, Table.mem_of_find? hf⟩
  · by_cases hm : row.id ∈ units.map (·.id)
    case pos => exact hparsed row hr hm
    case neg =>
      have hf := (h.others row.id hm).left
      rw [show w'.db.units.find? row.id = some row from Table.find?_of_mem hr] at hf
      have := (Option.filter_eq_some_iff.mp hf.symm).right
      simp [hp] at this
  · obtain ⟨_, _, _, _, _, hf⟩ := h.embedded unit hu
    exact Table.mem_of_find? hf
  · rw [(h.others _ hn).right,
      show w.db.units.find? row.id = some row from Table.find?_of_mem hr]
    simp [hp]
  · by_cases hm : row.id ∈ units.map (·.id)
    case pos =>
      obtain ⟨u, hu, summary, rfl⟩ := hparsed row hr hm
      exact (hp (hpath u hu)).elim
    case neg =>
      have hf := (h.others row.id hm).left
      rw [show w'.db.units.find? row.id = some row from Table.find?_of_mem hr] at hf
      exact Table.mem_of_find? (Option.filter_eq_some_iff.mp hf.symm).left
  · have hf := (h.others row.id (hother row hr hp)).left
    rw [show w.db.units.find? row.id = some row from Table.find?_of_mem hr] at hf
    refine Table.mem_of_find? (hf.trans ?_)
    simp [hp]
  · rw [(h.others _ (hother row hr hp)).right,
      show w.db.units.find? row.id = some row from Table.find?_of_mem hr]
    simp [hp]
  · rw [(h.others i hi).right, hn]
    rfl

-- A sync of a file that succeeds stores the file, whatever state it starts in.
theorem syncFile_synced (hp : stack.parser.distillFile filePath stored false = .ok units)
    (hd : (units.map (·.id)).Nodup)
    (hown : ∀ u ∈ units, ∀ row ∈ w.db.units, row.id = u.id → row.path = stored.getD filePath)
    (hr : ((stack.syncFile force filePath stored).run w).outcome = .ok ()) :
    ∃ pending, Synced stack.embedder units (stored.getD filePath) w
      ((stack.syncFile force filePath stored).run w).state pending := by
  have hpost : (stack.syncFile force filePath stored).run.post _ w := syncFile_post hp hd
  have ⟨pending, h⟩ := hpost hr
  exact ⟨pending, h.synced (fun u hu => (MultiParser.parsed_of_distillFile hp u hu).path) hown⟩

section Again

variable {P : Call → Prop} {path : String} {ids : List String}

-- The unit is stored with a summary and a vector. An empty summary is looked for again, and stays empty.
def Stays (stack : IndexStack F) (P : Call → Prop) (u : KnowledgeUnit) (s : World F) : Prop :=
  (s.db.vec? u.id).isSome ∧ ∃ summary,
    s.db.units.find? u.id = some (withSummary u (some summary)).toUnitRow ∧
    (summary = "" → (∀ code name answer, stack.summarize code name = .ok answer → answer = "") ∧
      ∀ code name answer, P (.summarize code name answer))

theorem Stays.same {s' : World F} (h : Stays stack P u s) (hs : s.db.SameTables s'.db) :
    Stays stack P u s' := by
  have ⟨hv, summary, hf, he⟩ := h
  exact ⟨hs.vec _ ▸ hv, summary, hs.find? _ ▸ hf, he⟩

-- What happens to a unit that is stored already.
structure Again (P : Call → Prop) (s s' : World F) : Prop where
  tables : s.db.SameTables s'.db
  calls  : s.Calls P s'

theorem Again.refl : Again P s s :=
  ⟨.refl, .of_eq rfl⟩

theorem Again.trans {s' s'' : World F} (h : Again P s s') (h' : Again P s' s'') : Again P s s'' :=
  ⟨h.tables.trans h'.tables, h.calls.trans h'.calls⟩

theorem Again.binds {s' : World F} {m : String} (hp : P (.aembed [EMBEDDING_PROBE_TEXT]))
    (h : s.Binds m s') : Again P s s' :=
  ⟨h.db.same, h.calls_probe hp⟩

theorem Again.reads {s' : World F} (h : s.Reads s') : Again P s s' := by
  obtain ⟨f, rfl⟩ := h
  exact ⟨.refl, .of_eq rfl⟩

-- The summary of the unit does not change.
private theorem newSummary_again {existing : Option KnowledgeUnit} {summary : String}
    (he : existing.map (·.toUnitRow) = some (withSummary u (some summary)).toUnitRow)
    (hsum : summary = "" →
      (∀ code name answer, stack.summarize code name = .ok answer → answer = "") ∧
        ∀ code name answer, P (.summarize code name answer)) :
    (stack.newSummary false u.popRawCode existing u.rawCode).run.post
      (fun r s' => Again P s s' ∧ r = .ok (some summary)) s := by
  obtain ⟨e, rfl, he'⟩ := Option.map_eq_some_iff.mp he
  have hs : e.toUnitRow.summary = some summary := by rw [he']; rfl
  have hh : e.toUnitRow.codeHash = u.codeHash := by rw [he']; rfl
  change e.summary = some summary at hs
  change e.codeHash = u.codeHash at hh
  unfold newSummary
  by_cases hempty : summary = ""
  case neg =>
    have hd : shouldDistillUnit (some e) u.popRawCode false = false := by
      simp [shouldDistillUnit, truthy, hs, hempty, hh, KnowledgeUnit.popRawCode]
    rw [hd]
    exact post_pure ⟨.refl, by rw [Option.bind_some, hs]⟩
  case pos =>
    have hd : shouldDistillUnit (some e) u.popRawCode false = true := by
      simp [shouldDistillUnit, truthy, hs, hempty]
    obtain ⟨hanswer, hcall⟩ := hsum hempty
    rw [hd, if_pos rfl, Coroutine.run_call]
    refine post_of_ok (distillUnitSummary_eq stack) ⟨⟨.refl, .single rfl (hcall _ _ _)⟩, ?_⟩
    rw [Option.bind_some, hs]
    cases ha : answer stack u.rawCode u.popRawCode.name s
    case none => rfl
    case some t =>
      unfold answer at ha
      split at ha
      case isTrue => cases ha
      case isFalse =>
        cases hr : stack.summarize u.rawCode u.popRawCode.name <;> rw [hr] at ha <;> cases ha
        rw [hanswer _ _ _ hr, hempty]
        rfl

theorem processUnit_again (hp : P (.aembed [EMBEDDING_PROBE_TEXT])) (hrel : u.relations = [])
    (h : Stays stack P u s) : (stack.processUnit false u).run.post
      (fun r s' => Again P s s' ∧ ∀ unit, r ≠ .ok (some unit)) s := by
  have ⟨hv, summary, hf, hsum⟩ := h
  unfold processUnit
  simp only [Coroutine.run_bind, Coroutine.run_call, KnowledgeUnit.popRawCode_id]
  refine post_bind getUnit_post (fun existing s₁ ⟨hr₁, he⟩ => ?_) fun e s₁ ⟨hr₁, _⟩ => ⟨.reads hr₁, nofun⟩
  have he := (he existing rfl).trans hf
  have h₁ : Again P s s₁ := .reads hr₁
  refine post_bind (newSummary_again he hsum) ?_ fun e s₂ ⟨_, hn⟩ => by cases hn
  rintro _ s₂ ⟨h₂, ⟨⟩⟩
  have h₂ := h₁.trans h₂
  refine post_bind hasEmbedding_post ?_ fun e s₃ ⟨hb, _⟩ => ⟨h₂.trans (.binds hp hb), nofun⟩
  rintro hasVec s₃ ⟨hb, hhas⟩
  have h₃ := h₂.trans (.binds hp hb)
  have hhas : hasVec = true := by rw [hhas hasVec rfl, h₂.tables.vec, hv]
  have hneed : unitNeedsEmbedding (withSummary u (some summary)) existing hasVec = false := by
    obtain ⟨e, rfl, he'⟩ := Option.map_eq_some_iff.mp he
    exact unitNeedsEmbedding_eq_false.mpr ⟨e, rfl, congrArg UnitRow.codeHash he',
      congrArg UnitRow.summary he', hhas⟩
  show EStateM.post (Coroutine.run (if unitNeedsEmbedding (withSummary u (some summary)) existing hasVec
    then pure (some (withSummary u (some summary)))
    else call (upsertUnit stack.embedder (withSummary u (some summary)) none) >>= fun _ => pure none)) _ s₃
  rw [hneed, if_neg (by decide), Coroutine.run_bind, Coroutine.run_call]
  have hup : ∀ {r : Except Exn Unit} {s₄ : World F}, (∃ w₁, Upserts stack.embedder
      (withSummary u (some summary)) none s₃ w₁ r s₄) → Again P s s₄ := by
    rintro r s₄ ⟨w₁, hx⟩
    have hw : w₁ = s₃ := hx.start
    subst hw
    have hst : w₁.db.Stores (withSummary u (some summary)).toUnitRow none [] s₄.db := by
      have := hx.stores
      rwa [show (withSummary u (some summary)).relations = [] from hrel] at this
    obtain ⟨f, hfr⟩ := hx.frame
    refine h₃.trans ⟨hst.same ?_, .of_eq (by rw [hfr])⟩
    exact (h₃.tables.find? _).trans hf
  refine post_bind upsertUnit_post (fun _ s₄ hx => post_pure ⟨hup hx, nofun⟩) fun e s₄ hx => ⟨hup hx, nofun⟩

theorem processUnits_again (hp : P (.aembed [EMBEDDING_PROBE_TEXT]))
    (hrel : ∀ u ∈ us, u.relations = []) (h : ∀ u ∈ us, Stays stack P u s) :
    (stack.processUnits false us).run.post
      (fun r s' => Again P s s' ∧ ∀ pending, r = .ok pending → pending = []) s := by
  induction us generalizing s
  case nil => exact post_pure ⟨.refl, fun _ h => by cases h; rfl⟩
  case cons u us ih =>
    unfold processUnits
    rw [Coroutine.run_bind]
    refine post_bind (processUnit_again hp (hrel u (.head _)) (h u (.head _))) ?_
      fun e s₁ h₁ => ⟨h₁.left, fun _ h => by cases h⟩
    rintro here s₁ ⟨h₁, hn⟩
    rw [Coroutine.run_bind]
    refine post_bind (ih (fun u hu => hrel u (.tail _ hu)) fun u hu => (h u (.tail _ hu)).same h₁.tables)
      ?_ fun e s₂ h₂ => ⟨h₁.trans h₂.left, fun _ h => by cases h⟩
    rintro rest s₂ ⟨h₂, hrest⟩
    refine post_pure ⟨h₁.trans h₂, fun pending he => ?_⟩
    cases he
    rw [hrest rest rfl]
    cases here
    case none      => rfl
    case some unit => exact (hn unit rfl).elim

theorem syncFile_again (hparse : stack.parser.distillFile filePath stored false = .ok units)
    (hp : P (.aembed [EMBEDDING_PROBE_TEXT])) (h : ∀ u ∈ units, Stays stack P u s)
    (hn : ∀ row ∈ s.db.units, isStale (stored.getD filePath) (units.map (·.id)) row = false) :
    Again P s ((stack.syncFile false filePath stored).run s).state := by
  have hpost : (stack.syncFile false filePath stored).run.post (fun _ s' => Again P s s') s := by
    unfold syncFile
    rw [hparse, Coroutine.run_bind, Coroutine.run_call]
    refine post_bind rejectDirtyIncremental_post (fun _ s₀ h₀ => ?_) fun _ s₀ h₀ => h₀ ▸ .refl
    rw [h₀]
    show EStateM.post (Coroutine.run (processUnits stack false units >>= _)) _ _
    rw [Coroutine.run_bind]
    have hrel := fun u hu => (MultiParser.parsed_of_distillFile hparse u hu).relations
    refine post_bind (processUnits_again hp hrel h) ?_ fun e s₁ ⟨h₁, _⟩ => h₁
    rintro pending s₁ ⟨h₁, hnil⟩
    rw [hnil pending rfl]
    show EStateM.post (Coroutine.run (call (deleteStaleUnits _ _ _))) _ _
    rw [Coroutine.run_call]
    refine post_mono deleteStaleUnits_post ?_
    rintro r s' ⟨w₁, f, _, hb, hf, hdel, _⟩
    have hsame := h₁.trans (.binds hp hb)
    refine hsame.trans ⟨hdel.same fun row hr => hn row ((hsame.tables.units row).mp hr), ?_⟩
    exact .of_eq (by rw [hf])
  exact hpost

-- A summarizer that does not fail gives a unit some summary, unless it has one.
theorem ChosenLater.some_of_answers {summary : Option String} {Q : String → Prop}
    (h : ChosenLater stack false u w summary) (hl : ∀ n, w.llmFaults n = false)
    (hs : ∀ code name, ∃ t, stack.summarize code name = .ok t ∧ Q t) :
    ∃ t, summary = some t ∧ (Q t ∨ t ≠ "") := by
  obtain ⟨s, k, hk, existing, _, hsum⟩ := h
  split at hsum
  case isTrue =>
    obtain ⟨t, ht, hq⟩ := hs u.rawCode u.name
    refine ⟨t, ?_, .inl hq⟩
    simp [hsum, answer, hk, hl, ht, Except.toOption]
  case isFalse hd =>
    cases existing
    case none => exact (hd rfl).elim
    case some e _ =>
      cases he : e.summary
      case none => exact (hd (by simp [shouldDistillUnit, he, truthy])).elim
      case some t =>
        refine ⟨t, by rw [hsum, Option.bind_some, he], .inr fun ht => hd ?_⟩
        simp [shouldDistillUnit, he, truthy, ht]

-- Syncing a file again, in the same session or in a later one, changes no table. With a summarizer that
-- gives texts it calls no model; with one that gives none it does not embed any text.
theorem syncFile_idempotent {w₂ : World F}
    (hparse : stack.parser.distillFile filePath stored false = .ok units)
    (hd : (units.map (·.id)).Nodup) (hl : ∀ n, w.llmFaults n = false)
    (hr : ((stack.syncFile false filePath stored).run w).outcome = .ok ())
    (hw : ((stack.syncFile false filePath stored).run w).state.db.SameTables w₂.db) :
    let w₁ := ((stack.syncFile false filePath stored).run w).state
    let w₃ := ((stack.syncFile false filePath stored).run w₂).state
    ((∀ code name, ∃ t, stack.summarize code name = .ok t ∧ t ≠ "") →
      w₁.db.SameTables w₃.db ∧ w₂.Calls (· = .aembed [EMBEDDING_PROBE_TEXT]) w₃) ∧
    ((∀ code name, stack.summarize code name = .ok "") →
      w₁.db.SameTables w₃.db ∧ w₂.Calls Call.Prelim w₃) := by
  have hpost : (stack.syncFile false filePath stored).run.post _ w := syncFile_post hparse hd
  have ⟨pending, h⟩ := hpost hr
  have hn : ∀ row ∈ w₂.db.units, isStale (stored.getD filePath) (units.map (·.id)) row = false := by
    intro row hrow
    by_cases hm : row.id ∈ units.map (·.id)
    case pos => exact isStale_of_mem hm
    case neg =>
      have hf := (h.others row.id hm).left
      rw [show ((stack.syncFile false filePath stored).run w).state.db.units.find? row.id = some row from
        Table.find?_of_mem ((hw.units row).mp hrow)] at hf
      have := (Option.filter_eq_some_iff.mp hf.symm).right
      simp only [isStale, decide_eq_false_iff_not]
      simp_all
  have hagain : ∀ {P : Call → Prop} {Q : String → Prop}, P (.aembed [EMBEDDING_PROBE_TEXT]) →
      (∀ code name, ∃ t, stack.summarize code name = .ok t ∧ Q t) →
      (Q "" → (∀ code name answer, stack.summarize code name = .ok answer → answer = "") ∧
        ∀ code name answer, P (.summarize code name answer)) →
      Again P w₂ ((stack.syncFile false filePath stored).run w₂).state := by
    intro P Q hp hs hq
    refine syncFile_again hparse hp (fun u hu => ?_) hn
    obtain ⟨summary, hc, hf⟩ := h.rows u hu
    obtain ⟨t, rfl, ht⟩ := hc.some_of_answers hl hs
    have hstays : Stays stack P u ((stack.syncFile false filePath stored).run w).state :=
      ⟨h.vec_isSome hu, t, hf, fun he => hq (by subst he; exact ht.resolve_right fun h => h rfl)⟩
    exact hstays.same hw
  constructor
  case left =>
    intro hs
    have ha := hagain (P := (· = .aembed [EMBEDDING_PROBE_TEXT])) rfl hs fun hq => (hq rfl).elim
    exact ⟨hw.trans ha.tables, ha.calls⟩
  case right =>
    intro hs
    have ha := hagain (P := Call.Prelim) (Q := (· = "")) rfl (fun code name => ⟨"", hs code name, rfl⟩)
      fun _ => ⟨fun code name answer ha => Except.ok.inj (ha.symm.trans (hs code name)), fun _ _ _ => trivial⟩
    exact ⟨hw.trans ha.tables, ha.calls⟩

end Again

section Sample

-- A file with a new function, after it was synced with two others.
private def indexed : World naturals :=
  let w := ((Sample.stack "m" [("/r/a.py", "f=1\ng=2")] "" (some "/r")).syncFile false "/r/a.py"
    (some "a.py")).run (.opened (Sample.embedder "m") .empty false none noFaults)
  { w.state with llmFaults := noFaults }

private def after (summary : String) : IndexStack naturals :=
  Sample.stack "m" [("/r/a.py", "f=1\nh=3")] summary (some "/r")

theorem syncFile_synced_sample : ∃ units pending, Synced (Sample.embedder "m") units "a.py" indexed
    (((after "").syncFile false "/r/a.py" (some "a.py")).run indexed).state pending := by
  have hr : (((after "").syncFile false "/r/a.py" (some "a.py")).run indexed).outcome = .ok () := by
    decide +kernel
  have hrows : (indexed.db.units.rows.map UnitRow.path).all (· = "a.py") := by decide +kernel
  have hids : ((after "").parser.distillFile "/r/a.py" (some "a.py") false).map (·.map (·.id)) =
      .ok ["a.py:f", "a.py:h"] := by decide +kernel
  have ⟨units, hp, hids⟩ := Sample.exists_units hids
  generalize indexed = w at hr hrows ⊢
  have hown : ∀ u ∈ units, ∀ row ∈ w.db.units, row.id = u.id → row.path = "a.py" := fun _ _ row h _ => by
    simpa using List.all_eq_true.mp hrows _ (List.mem_map_of_mem h)
  have ⟨pending, h⟩ := syncFile_synced hp (by rw [hids]; decide) hown hr
  exact ⟨units, pending, h⟩

-- The two syncs, of which the second finds nothing to do.
private def once (summary : String) : World naturals :=
  (((after summary).syncFile false "/r/a.py" (some "a.py")).run indexed).state

private def twice (summary : String) : World naturals :=
  (((after summary).syncFile false "/r/a.py" (some "a.py")).run (once summary)).state

theorem syncFile_idempotent_sample :
    ((once "text").db.SameTables (twice "text").db ∧
      (once "text").Calls (· = .aembed [EMBEDDING_PROBE_TEXT]) (twice "text")) ∧
    ((once "").db.SameTables (twice "").db ∧ (once "").Calls Call.Prelim (twice "")) := by
  have hr : ∀ summary ∈ ["text", ""],
      (((after summary).syncFile false "/r/a.py" (some "a.py")).run indexed).outcome = .ok () := by
    decide +kernel
  have hids : ((after "").parser.distillFile "/r/a.py" (some "a.py") false).map (·.map (·.id)) =
      .ok ["a.py:f", "a.py:h"] := by decide +kernel
  have hl : indexed.llmFaults = noFaults := rfl
  have ⟨units, hp, hids⟩ := Sample.exists_units hids
  have hp : ∀ summary, (after summary).parser.distillFile "/r/a.py" (some "a.py") false = .ok units :=
    fun _ => hp
  have hd : (units.map (·.id)).Nodup := by rw [hids]; decide
  unfold twice once
  generalize indexed = w at hr hl ⊢
  have hl : ∀ n, w.llmFaults n = false := fun n => by rw [hl]; rfl
  exact ⟨(syncFile_idempotent (hp "text") hd hl (hr _ (.head _)) .refl).left
      fun _ _ => ⟨"text", rfl, by decide⟩,
    (syncFile_idempotent (hp "") hd hl (hr _ (.tail _ (.head _))) .refl).right fun _ _ => rfl⟩

end Sample

end IndexStack
