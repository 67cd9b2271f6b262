import CodeRag.Services.Theorems.Kept
import CodeRag.Services.Theorems.Sample

-- Which units have a summary that was made for the code they are stored with.

-- The summarizer has returned the summary of the unit for code with the unit's hash.
def UnitRow.Distilled (sha256 : String → String) (calls : List Call) (u : UnitRow) : Prop :=
  ∃ code name summary, .summarize code name (some summary) ∈ calls ∧ u.summary = some summary ∧
    u.codeHash = sha256 code

theorem UnitRow.Distilled.append {sha256 : String → String} {calls : List Call} {u : UnitRow}
    (h : u.Distilled sha256 calls) (more : List Call) : u.Distilled sha256 (calls ++ more) := by
  obtain ⟨code, name, summary, hm, hu⟩ := h
  exact ⟨code, name, summary, List.mem_append_left _ hm, hu⟩

-- The hash of a unit is that of the code that the summarizer is given.
theorem MultiParser.codeHash_of_distillFile {parser : MultiParser} {filePath : String}
    {stored : Option String} {raise : Bool} {units : List KnowledgeUnit}
    (h : parser.distillFile filePath stored raise = .ok units) :
    ∀ u ∈ units, u.codeHash = parser.runtime.sha256 u.rawCode := by
  intro u hu
  obtain ⟨_, _, _, _, _, _, rfl⟩ := mem_distillFile h u hu
  rfl

-- The summarizer raises for no unit that has a summary of other code: neither in the tables with which a
-- sync starts, nor by another file of this sync. The units that the sync parses satisfy `parses`, and
-- `made` are its calls.
def Spares {F : Floats} (db : Db F) (parses : KnowledgeUnit → Prop) (made : List Call) : Prop :=
  ∀ u, parses u → .summarize u.rawCode u.name none ∈ made →
    (∀ e, db.units.find? u.id = some e → truthy e.summary → e.codeHash = u.codeHash) ∧
      ∀ u', parses u' → u'.id = u.id → u'.codeHash = u.codeHash

theorem Spares.of_append {F : Floats} {db : Db F} {parses : KnowledgeUnit → Prop} {made more : List Call}
    (h : Spares db parses (made ++ more)) : Spares db parses made :=
  fun u hu hm => h u hu (List.mem_append_left _ hm)

namespace World

variable {F : Floats} {w w' : World F} {sha256 : String → String} {past made : List Call} {u : UnitRow}

-- All summaries have been made for the code they are stored with.
def Documented (sha256 : String → String) (past : List Call) (w : World F) : Prop :=
  w.Held fun db => ∀ u ∈ db.units, truthy u.summary → u.Distilled sha256 past

-- The unit is documented after the calls `past`, and the calls `made` since then.
def Known (sha256 : String → String) (past made : List Call) (u : UnitRow) : Prop :=
  truthy u.summary → u.Distilled sha256 (past ++ made)

-- In a sync that is spared, the unit is documented, and its hash is one that it had before or that a file
-- of the sync gives it.
def Genuine (sha256 : String → String) (past : List Call) (db : Db F) (parses : KnowledgeUnit → Prop)
    (made : List Call) (u : UnitRow) : Prop :=
  Spares db parses made → truthy u.summary → u.Distilled sha256 (past ++ made) ∧
    ((∃ e, db.units.find? u.id = some e ∧ truthy e.summary ∧ e.codeHash = u.codeHash) ∨
      ∃ p, parses p ∧ p.id = u.id ∧ p.codeHash = u.codeHash)

theorem lasting_known : Lasting (Known sha256 past) := by
  intro made more u h hs
  rw [←List.append_assoc]
  exact (h hs).append more

theorem lasting_genuine {db : Db F} {parses : KnowledgeUnit → Prop} :
    Lasting (Genuine sha256 past db parses) := by
  intro made more u h hsp hs
  have ⟨hd, ho⟩ := h hsp.of_append hs
  exact ⟨by rw [←List.append_assoc]; exact hd.append more, ho⟩

theorem Documented.keeps (h : w.Documented sha256 past) :
    w.Keeps w.calls (Known sha256 past) (Known sha256 past) := by
  refine ⟨[], (List.append_nil _).symm, ?_⟩
  unfold Known
  rw [List.append_nil]
  exact h

theorem Keeps.documented (h : w'.Keeps w.calls (Known sha256 past) (Known sha256 past)) :
    ∃ made, w'.calls = w.calls ++ made ∧ w'.Documented sha256 (past ++ made) :=
  have ⟨made, hm, hk⟩ := h
  ⟨made, hm, hk⟩

-- A sync starts with the hashes that the units have.
theorem Documented.genuine {parses : KnowledgeUnit → Prop} (h : w.Documented sha256 past) :
    ∀ u ∈ w.db.units, Genuine sha256 past w.db parses [] u := by
  intro u hu _ hs
  rw [List.append_nil]
  exact ⟨h.left u hu hs, .inl ⟨u, Table.find?_of_mem hu, hs, rfl⟩⟩

theorem Documented.keeps_genuine {parses : KnowledgeUnit → Prop} (h : w.Documented sha256 past) :
    w.Keeps w.calls (Genuine sha256 past w.db parses) (Known sha256 past) :=
  have ⟨_, hm, _, hl⟩ := h.keeps
  ⟨[], (List.append_nil _).symm, h.genuine, List.self_eq_append_right.mp hm ▸ hl⟩

-- A sync that has been spared leaves documented units.
theorem Keeps.spared {db : Db F} {parses : KnowledgeUnit → Prop}
    (h : w'.Keeps w.calls (Genuine sha256 past db parses) (Known sha256 past)) :
    ∃ made, w'.calls = w.calls ++ made ∧
      (Spares db parses made → w'.Documented sha256 (past ++ made)) :=
  have ⟨made, hm, hk, hl⟩ := h
  ⟨made, hm, fun hsp => ⟨fun u hu hs => (hk u hu hsp hs).left, hl⟩⟩

end World

namespace IndexStack

open Conn Coroutine World

variable {F : Floats} {stack : IndexStack F} {force : Bool} {units : List KnowledgeUnit}
variable {w w' s₀ : World F} {sha256 : String → String} {earlier start past : List Call}
variable {db : Db F} {parses : KnowledgeUnit → Prop} {L : List Call → UnitRow → Prop}

-- A unit that is stored by a sync has a new summary, or one that it had already.
theorem justified_genuine (hs : s₀.Keeps start (Genuine sha256 (earlier ++ start) db parses) L)
    (hp : ∀ u ∈ units, parses u) (hh : ∀ u ∈ units, u.codeHash = sha256 u.rawCode) :
    stack.Justified force units start (Genuine sha256 (earlier ++ start) db parses) L s₀ := by
  intro u hu existing summary hasVec s hprep made hm hsp htr
  have horigin : (∃ e, db.units.find? u.id = some e ∧ truthy e.summary ∧ e.codeHash = u.codeHash) ∨
      ∃ p, parses p ∧ p.id = u.id ∧ p.codeHash = u.codeHash := .inr ⟨u, hp u hu, rfl, rfl⟩
  refine ⟨?_, horigin⟩
  -- A summary that the unit had was made for code with the hash that the unit had.
  have hkept : ∀ e : UnitRow, Genuine sha256 (earlier ++ start) db parses made e → e.summary = summary →
      e.codeHash = u.codeHash →
      (withSummary u summary).toUnitRow.Distilled sha256 (earlier ++ start ++ made) := by
    intro e he hsu hc
    obtain ⟨code, name, t, hcall, ht, hcode⟩ := (he hsp (by rw [hsu]; exact htr)).left
    exact ⟨code, name, t, hcall, hsu ▸ ht, hc ▸ hcode⟩
  obtain ⟨t, rfl, hcall⟩ | ⟨e, _, he, hsu, hc⟩ | ⟨hcall, rfl | ⟨e, hid, he, hsu⟩⟩ :=
    hprep.summary_cases lasting_genuine hs hm
  · exact ⟨u.rawCode, u.name, t, List.mem_append_right _ hcall, rfl, hh u hu⟩
  · exact hkept e he hsu hc
  · cases htr
  -- The call has raised, so that the unit has got no other hash.
  · have hspu := hsp u (hp u hu) hcall
    refine hkept e he hsu ?_
    obtain ⟨e₀, hf, ht₀, hc₀⟩ | ⟨p, hpp, hpi, hpc⟩ := (he hsp (by rw [hsu]; exact htr)).right
    · exact hc₀.symm.trans (hspu.left e₀ (hid ▸ hf) ht₀)
    · exact hpc.symm.trans (hspu.right p hpp (hpi.trans hid))

-- The units that a sync parses.
def ParsesFile (stack : IndexStack F) (filePath : String) (stored : Option String) (u : KnowledgeUnit) : Prop :=
  ∃ units, stack.parser.distillFile filePath stored false = .ok units ∧ u ∈ units

def Parses (stack : IndexStack F) (paths : List String) (u : KnowledgeUnit) : Prop :=
  ∃ p ∈ paths, ∃ stored units, stack.parsesAt p stored units ∧ u ∈ units

-- The calls of a sync of a file, and what they are good for.
theorem syncFile_documented {filePath : String} {stored : Option String}
    (hd : w.Documented sha256 (earlier ++ w.calls)) (hh : stack.parser.runtime.sha256 = sha256) :
    ∃ made, ((stack.syncFile force filePath stored).run w).state.calls = w.calls ++ made ∧
      (Spares w.db (stack.ParsesFile filePath stored) made →
        ((stack.syncFile force filePath stored).run w).state.Documented sha256 (earlier ++ w.calls ++ made)) := by
  have hk : w.Keeps w.calls (Genuine sha256 (earlier ++ w.calls) w.db (stack.ParsesFile filePath stored)) _ :=
    hd.keeps_genuine
  refine Keeps.spared ((wp_run (wp_syncFile_keeping lasting_genuine lasting_known hk fun units hp => ?_)).right hk)
  exact justified_genuine hk (fun u hu => ⟨units, hp, hu⟩) (hh ▸ MultiParser.codeHash_of_distillFile hp)

theorem syncProject_documented {paths : List String} {indexAll : Bool} {n : Nat}
    {r : Except Exn (List (String × String))} (hd : w.Documented sha256 (earlier ++ w.calls))
    (hh : stack.parser.runtime.sha256 = sha256) (h : stack.SyncProject paths force indexAll n w r w') :
    ∃ made, w'.calls = w.calls ++ made ∧
      (Spares w.db (stack.Parses paths) made → w'.Documented sha256 (earlier ++ w.calls ++ made)) := by
  have hk : w.Keeps w.calls (Genuine sha256 (earlier ++ w.calls) w.db (stack.Parses paths)) _ :=
    hd.keeps_genuine
  refine Keeps.spared ((syncProject_keeping lasting_genuine lasting_known hk hd.genuine ?_ h).right hk)
  intro p hp stored units hpar w₁ h₁
  refine justified_genuine (h₁.right hk) (fun u hu => ⟨p, hp, stored, units, hpar, hu⟩) ?_
  exact hh ▸ MultiParser.codeHash_of_distillFile hpar.right

theorem prelude_documented {project : Project} {options : SyncOptions} (hd : w.Documented sha256 past) :
    ∃ made, (stack.prelude project options w).state.calls = w.calls ++ made ∧
      (stack.prelude project options w).state.Documented sha256 (past ++ made) := by
  have hpre : keeping w.calls (Known sha256 past) (Known sha256 past) w
      (stack.prelude project options w).state := by
    refine prelude_rel (fun _ _ => setDependencyPath_keeping lasting_known lasting_known) fun w₁ _ => ?_
    refine migrateIfNeeded_rel (fun _ _ h _ => keeping_of_reads lasting_known lasting_known h) fun w₂ _ => ?_
    refine migrateAbsolutePaths_keeping lasting_known (fun old new made u h => ?_) w₂
    unfold UnitRow.rewritePath
    split
    case isTrue  => exact h
    case isFalse => exact h
  exact (hpre.right hd.keeps).documented

end IndexStack

-- All syncs hash code in the same way.
def Request.Hashes {F : Floats} (sha256 : String → String) : Request F → Prop
  | syncFile stack .. | syncProject stack .. | runSync stack .. => stack.parser.runtime.sha256 = sha256
  | reopen .. | search ..                                       => True

-- The summarizer raises for no unit that has a summary of other code. A sync of the whole project starts
-- with the tables that the migration of the paths leaves.
def Request.Spared {F : Floats} (s : Session F) (made : List Call) : Request F → Prop
  | syncFile stack _ filePath stored  => Spares s.world.db (stack.ParsesFile filePath stored) made
  | syncProject stack paths _ _ _     => Spares s.world.db (stack.Parses paths) made
  | runSync stack project options     => ∀ paths w, stack.prelude project options s.world = .ok (some paths) w →
    Spares w.db (IndexStack.Parses { stack with root := some options.root } paths) made
  | reopen .. | search ..             => True

-- The calls that a request has made.
def Request.calls {F : Floats} (s s' : Session F) : Request F → List Call
  | reopen .. => s'.world.calls
  | syncFile .. | syncProject .. | runSync .. | search .. => s'.world.calls.drop s.world.calls.length

namespace Session

open Conn IndexStack World

variable {F : Floats} {s s' : Session F} {a : Request F} {r : Reply} {sha256 : String → String}
variable {calls : List Call} {P : Session F → Request F → List Call → Prop}

-- The sessions that requests with property `P` lead to, from an empty index on, and all calls on the way.
inductive History (P : Session F → Request F → List Call → Prop) : List Call → Session F → Prop
  | start {s s' : Session F} {a : Request F} {r : Reply} :
    s.world.committed = .empty → a.IsReopen → P s a (a.calls s s') → Step s a r s' → History P (a.calls s s') s'
  | step {calls : List Call} {s s' : Session F} {a : Request F} {r : Reply} :
    History P calls s → P s a (a.calls s s') → Step s a r s' → History P (calls ++ a.calls s s') s'

-- The next sync of the unchanged file that succeeds asks for the summary of the unit.
def Retries (sha256 : String → String) (s : Session F) (u : UnitRow) : Prop :=
  ∀ (stack : IndexStack F) (filePath : String) (stored : Option String) (parsed : KnowledgeUnit) (w : World F),
    stack.embedder = s.embedder → stack.parser.runtime.sha256 = sha256 →
    stack.ParsesFile filePath stored parsed → parsed.id = u.id → parsed.codeHash = u.codeHash →
    (stack.syncFile false filePath stored).run s.world = .ok () w →
    ∃ summary, .summarize parsed.rawCode parsed.name summary ∈ w.calls.drop s.world.calls.length

-- Every summary was made for the code it is stored with, or is asked for again.
def Faithful (sha256 : String → String) (calls : List Call) (s : Session F) : Prop :=
  ∀ u ∈ s.world.db.units, truthy u.summary → u.Distilled sha256 calls ∨ s.Retries sha256 u

-- The calls of the current session are the last ones.
structure Documented (sha256 : String → String) (calls : List Call) (s : Session F) : Prop where
  units : s.world.Documented sha256 calls
  last  : ∃ earlier, calls = earlier ++ s.world.calls

theorem Documented.append {w : World F} (h : s.Documented sha256 calls)
    (hw : ∃ made, w.calls = s.world.calls ++ made ∧
      (w.calls.drop s.world.calls.length = made → w.Documented sha256 (calls ++ made))) :
    Documented sha256 (calls ++ w.calls.drop s.world.calls.length) { s with world := w } := by
  obtain ⟨made, hm, hd⟩ := hw
  have hdrop : w.calls.drop s.world.calls.length = made := by rw [hm, List.drop_left]
  obtain ⟨earlier, he⟩ := h.last
  refine ⟨hdrop ▸ hd hdrop, earlier, ?_⟩
  rw [hdrop, he, List.append_assoc]
  exact congrArg (earlier ++ ·) hm.symm

theorem Documented.step (h : s.Documented sha256 calls) (hh : a.Hashes sha256)
    (hsp : a.Spared s (a.calls s s')) (hs : s.Step a r s') :
    s'.Documented sha256 (calls ++ a.calls s s') := by
  obtain ⟨earlier, he⟩ := h.last
  have hunits := h.units
  cases hs
  case reopen embedder mode wipe dimension faults llmFaults r hopen =>
    have hk : (World.connect s.world.committed mode dimension faults llmFaults).Documented sha256 calls :=
      ⟨hunits.committed, nofun⟩
    have hw : (openDbConnection embedder wipe).Within
        (keeping [] (Known sha256 calls) (Known sha256 calls)) :=
      openDbConnection_keeping lasting_known lasting_known
    have ho := (hw _).right hk.keeps
    rw [hopen] at ho
    obtain ⟨made, hm, hd⟩ := Keeps.documented (w := .connect s.world.committed mode dimension faults llmFaults) ho
    refine ⟨?_, calls, rfl⟩
    show r.state.Documented sha256 (calls ++ r.state.calls)
    rw [hm]
    exact hd
  case syncFile stack force filePath stored r hemb hrun =>
    subst he
    refine h.append ?_
    have ⟨made, hm, hd⟩ : ∃ made, ((stack.syncFile force filePath stored).run s.world).state.calls =
        s.world.calls ++ made ∧ _ := syncFile_documented hunits hh
    rw [hrun] at hm hd
    exact ⟨made, hm, fun hdrop => hd (hdrop ▸ hsp)⟩
  case syncProject stack paths force indexAll n w hemb hr =>
    subst he
    refine h.append ?_
    obtain ⟨made, hm, hd⟩ := syncProject_documented hunits hh hr
    exact ⟨made, hm, fun hdrop => hd (hdrop ▸ hsp)⟩
  case search closer query limit r hsearch =>
    have hw : (searchUnits s.embedder closer query limit).Within
        (keeping s.world.calls (Known sha256 calls) (Known sha256 calls)) :=
      searchUnits_within (ensure_keeping lasting_known lasting_known)
        (fun _ => aembed_keeping lasting_known lasting_known)
        fun _ _ h _ => keeping_of_reads lasting_known lasting_known h
    have ho := ((hw s.world).right hunits.keeps).documented
    rw [hsearch] at ho
    obtain ⟨made, hm, hd⟩ := ho
    exact h.append ⟨made, hm, fun _ => hd⟩
  case runSync stack project options r w hemb hr =>
    refine h.append ?_
    have hpre : ∃ made, (stack.prelude project options s.world).state.calls = s.world.calls ++ made ∧
        (stack.prelude project options s.world).state.Documented sha256 (calls ++ made) :=
      prelude_documented hunits
    have hproject : ∀ {paths w₁ r'}, stack.prelude project options s.world = .ok (some paths) w₁ →
        SyncProject { stack with root := some options.root } paths options.force options.indexAll
          options.maxConcurrency w₁ r' w →
        ∃ made, w.calls = s.world.calls ++ made ∧ (w.calls.drop s.world.calls.length = made →
          w.Documented sha256 (calls ++ made)) := by
      intro paths w₁ r' hp hsync
      have hsp := hsp paths w₁ hp
      rw [hp] at hpre
      obtain ⟨made, hm, hd⟩ := hpre
      have hm : w₁.calls = s.world.calls ++ made := hm
      have hpast : calls ++ made = earlier ++ w₁.calls := by rw [he, hm, List.append_assoc]
      rw [hpast] at hd
      have hh : ({ stack with root := some options.root } : IndexStack F).parser.runtime.sha256 = sha256 := hh
      obtain ⟨made', hm', hd'⟩ := syncProject_documented hd hh hsync
      rw [←hpast, List.append_assoc] at hd'
      refine ⟨made ++ made', by rw [hm', hm, List.append_assoc], fun hdrop => hd' fun u hu hc => ?_⟩
      refine hsp u hu ?_
      show _ ∈ w.calls.drop s.world.calls.length
      rw [hdrop]
      exact List.mem_append_right _ hc
    cases hr
    case nothing =>
      refine ⟨[], (List.append_nil _).symm, fun _ => ?_⟩
      rw [List.append_nil]
      exact hunits
    case raised hp =>
      rw [hp] at hpre
      obtain ⟨made, hm, hd⟩ := hpre
      exact ⟨made, hm, fun _ => hd⟩
    case skipped hp =>
      rw [hp] at hpre
      obtain ⟨made, hm, hd⟩ := hpre
      exact ⟨made, hm, fun _ => hd⟩
    case failed hp hsync => exact hproject hp hsync
    case synced hp hsync => exact hproject hp hsync

-- As long as the summarizer raises for no unit that has a summary of other code, every summary was made for
-- the code it is stored with.
theorem faithful_of_spared (h : History (fun s a made => a.Hashes sha256 ∧ a.Spared s made) calls s) :
    s.Faithful sha256 calls := by
  suffices s.Documented sha256 calls from fun u hu hs => .inl (this.units.left u hu hs)
  induction h
  case start s s' a r hdb ha hp hs =>
    have hd : Documented sha256 []
        { s with world := { s.world with db := s.world.committed, saved := none, calls := [] } } := by
      refine ⟨⟨fun u hu => ?_, nofun⟩, [], rfl⟩
      rw [show u ∈ s.world.committed.units ↔ u ∈ (Db.empty : Db F).units by rw [hdb]] at hu
      exact (Table.not_mem_empty hu).elim
    cases a <;> try exact ha.elim
    cases hs
    case reopen hopen => exact hd.step hp.left hp.right (.reopen hopen)
  case step hp hs ih => exact ih.step hp.left hp.right hs

section Sample

-- The summarizer gives every unit the same summary.
private def source (content : String) : IndexStack naturals :=
  Sample.stack "m" [("a.py", content)] "s" none

private def openedWith (raises : Nat → Bool) : Session naturals where
  embedder := Sample.embedder "m"
  world    := .opened (Sample.embedder "m") .empty false none raises

private def syncSource (s : Session naturals) (content : String) : Session naturals :=
  { s with world := (((source content).syncFile false "a.py" none).run s.world).state }

private theorem history_opened {P : Session naturals → Request naturals → List Call → Prop} {raises : Nat → Bool}
    (h : ∀ s made, P s (.reopen (Sample.embedder "m") .readWrite false none noFaults raises) made) :
    History P (openedWith raises).world.calls (openedWith raises) :=
  .start (s := ⟨Sample.embedder "m", .connect .empty .readWrite none noFaults noFaults⟩)
    (a := .reopen (Sample.embedder "m") .readWrite false none noFaults raises) rfl trivial (h _ _)
    (.reopen openDbConnection_eq)

private theorem history_sync {P : Session naturals → Request naturals → List Call → Prop} {s : Session naturals}
    {content : String} (h : History P s.world.calls s) (he : s.embedder = Sample.embedder "m")
    (hp : ∀ made, P s (.syncFile (source content) false "a.py" none) made)
    (hc : s.world.calls ++ (syncSource s content).world.calls.drop s.world.calls.length =
      (syncSource s content).world.calls) :
    History P (syncSource s content).world.calls (syncSource s content) := by
  rw [←hc]
  exact .step h (a := .syncFile (source content) false "a.py" none) (hp _) (.syncFile he.symm rfl)

private theorem codeHash_of_parses {content hash : String} {u : KnowledgeUnit}
    (h : ((source content).parser.distillFile "a.py" none false).map (·.map (·.codeHash)) = .ok [hash])
    (hu : (source content).ParsesFile "a.py" none u) : u.codeHash = hash := by
  obtain ⟨units, hd, hm⟩ := hu
  rw [hd] at h
  have hc : units.map (·.codeHash) = [hash] := Except.ok.inj h
  exact List.mem_singleton.mp (hc ▸ List.mem_map_of_mem (f := (·.codeHash)) hm)

-- No unit is stored with another hash than that of the file.
private theorem spares_of_codeHash {content : String} (hash : String) {db : Db naturals} {made : List Call}
    (h : ((source content).parser.distillFile "a.py" none false).map (·.map (·.codeHash)) = .ok [hash])
    (hd : db.units.rows.all (·.codeHash = hash)) : Spares db ((source content).ParsesFile "a.py" none) made := by
  intro u hu _
  refine ⟨fun e he _ => ?_, fun u' hu' _ => ?_⟩
  · rw [codeHash_of_parses h hu]
    simpa using List.all_eq_true.mp hd e (Table.mem_rows.mpr (Table.mem_of_find? he))
  · rw [codeHash_of_parses h hu, codeHash_of_parses h hu']

private def retried : Session naturals :=
  syncSource (syncSource (openedWith (· = 0)) "f=1") "f=1"

-- The summarizer raises for a unit that is new, and is asked again.
theorem faithful_of_spared_sample : .summarize "1" "f" none ∈ retried.world.calls ∧
    retried.Faithful id retried.world.calls := by
  refine ⟨by decide +kernel, faithful_of_spared ?_⟩
  refine history_sync (history_sync (history_opened fun _ _ => ⟨trivial, trivial⟩) rfl (fun made => ⟨rfl, ?_⟩)
    (by decide +kernel)) rfl (fun made => ⟨rfl, ?_⟩) (by decide +kernel)
  · exact spares_of_codeHash "1" (by decide +kernel) (by decide +kernel)
  · exact spares_of_codeHash "1" (by decide +kernel) (by decide +kernel)

private theorem run_sync {s : Session naturals} (content : String)
    (h : (((source content).syncFile false "a.py" none).run s.world).outcome = .ok ()) :
    ((source content).syncFile false "a.py" none).run s.world = .ok () (syncSource s content).world :=
  EStateM.eq_ok_of_outcome h

private def stale : Session naturals :=
  syncSource (syncSource (openedWith (· = 1)) "f=1") "f=2"

private def summarized : Call → Bool
  | .summarize .. => true
  | .aembed _     => false

-- The summarizer raises for a unit that has changed. The unit keeps the summary of its old code under the
-- hash of the new one, so that no later sync asks again.
theorem not_faithful : ¬∀ (calls : List Call) (s : Session naturals),
    History (fun _ a _ => a.Hashes id) calls s → s.Faithful id calls := by
  intro h
  have hf := h stale.world.calls stale <| history_sync
    (history_sync (history_opened fun _ _ => trivial) rfl (fun _ => rfl) (by decide +kernel)) rfl
    (fun _ => rfl) (by decide +kernel)
  obtain ⟨u, hu⟩ : ∃ u, stale.world.db.units.find? "a.py:f" = some u :=
    Option.isSome_iff_exists.mp (by decide +kernel)
  have hs : (stale.world.db.units.find? "a.py:f").map (fun u => (u.codeHash, u.summary)) =
      some ("2", some "s") := by decide +kernel
  rw [hu, Option.map_some, Option.some.injEq, Prod.mk.injEq] at hs
  obtain ⟨code, name, summary, hm, _, hc⟩ | hr := hf u (Table.mem_of_find? hu) (by rw [hs.right]; rfl)
  case inl =>
    -- Only the old code has got a summary.
    have hcalls : stale.world.calls.filter summarized =
        [.summarize "1" "f" (some "s"), .summarize "2" "f" none] := by decide +kernel
    have hm := List.mem_filter.mpr ⟨hm, (rfl : summarized (.summarize code name (some summary)) = true)⟩
    rw [hcalls] at hm
    have hcode : code = "2" := hc.symm.trans hs.left
    subst hcode
    simp at hm
  case inr =>
    obtain ⟨units, hd, hids⟩ : ∃ units, (source "f=2").parser.distillFile "a.py" none false = .ok units ∧
        units.map (·.id) = ["a.py:f"] := Sample.exists_units (by decide +kernel)
    obtain ⟨parsed, hp, hi⟩ := List.mem_map.mp (hids ▸ List.mem_singleton_self "a.py:f")
    have hparses : (source "f=2").ParsesFile "a.py" none parsed := ⟨units, hd, hp⟩
    have hcode : parsed.codeHash = "2" := codeHash_of_parses (by decide +kernel) hparses
    have hrun := run_sync (s := stale) "f=2" (by decide +kernel)
    obtain ⟨summary, hc⟩ := hr (source "f=2") "a.py" none parsed _ rfl rfl hparses
      (hi.trans (Table.key_of_find? hu).symm) (hcode.trans hs.left.symm) hrun
    -- The next sync makes no call.
    have hcalls : ((syncSource stale "f=2").world.calls.drop stale.world.calls.length).any summarized =
        false := by decide +kernel
    exact absurd rfl (List.any_eq_false.mp hcalls _ hc)

end Sample
end Session
