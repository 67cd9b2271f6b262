import CodeRag.Services.Theorems.Sample
import CodeRag.Services.Theorems.SyncAlone

-- A sync of files whose units are all stored with their hashes, their summaries and their vectors.

-- What the sync of a unit goes by.
def UnitRow.essence (u : UnitRow) : String × Option String × String :=
  (u.path, u.summary, u.codeHash)

namespace World

open Conn

variable {F : Floats} {s s' s'' : World F} {u : KnowledgeUnit} {units : List KnowledgeUnit}
variable {identity m : String}

-- No model is called, apart from the probe of an embedder, and no row changes in what a sync goes by.
structure Unmoved (s s' : World F) : Prop where
  calls : s.Calls (· = .aembed [EMBEDDING_PROBE_TEXT]) s'
  rows  : ∀ i, (s'.db.units.find? i).map UnitRow.essence = (s.db.units.find? i).map UnitRow.essence
  vec   : ∀ i, s'.db.vec? i = s.db.vec? i

namespace Unmoved

theorem refl : s.Unmoved s :=
  ⟨.of_eq rfl, fun _ => rfl, fun _ => rfl⟩

theorem trans (h : s.Unmoved s') (h' : s'.Unmoved s'') : s.Unmoved s'' where
  calls  := h.calls.trans h'.calls
  rows i := (h'.rows i).trans (h.rows i)
  vec i  := (h'.vec i).trans (h.vec i)

theorem of_reads (h : s.Reads s') : s.Unmoved s' := by
  obtain ⟨f, rfl⟩ := h
  exact ⟨.of_eq rfl, fun _ => rfl, fun _ => rfl⟩

theorem of_binds (h : s.Binds m s') : s.Unmoved s' where
  calls  := h.calls_probe rfl
  rows i := by rw [h.db.units]
  vec _  := h.db.vec?

end Unmoved

def unmoved : Rely (World F) where
  rel   := Unmoved
  refl _ := .refl
  trans := .trans

-- The unit is stored with its hash, a summary and a vector.
structure Stocked (s : World F) (u : KnowledgeUnit) : Prop where
  vec : (s.db.vec? u.id).isSome
  row : ∃ summary, summary ≠ "" ∧
    (s.db.units.find? u.id).map UnitRow.essence = some (u.path, some summary, u.codeHash)

-- All units of the file are, and no others are stored at its path.
structure StockedFile (s : World F) (units : List KnowledgeUnit) (identity : String) : Prop where
  stocked : ∀ u ∈ units, s.Stocked u
  only    : ∀ row ∈ s.db.units, row.path = identity → row.id ∈ units.map (·.id)

theorem Stocked.unmoved (h : s.Stocked u) (hs : s.Unmoved s') : s'.Stocked u where
  vec := hs.vec _ ▸ h.vec
  row := hs.rows _ ▸ h.row

theorem StockedFile.unmoved (h : s.StockedFile units identity) (hs : s.Unmoved s') :
    s'.StockedFile units identity where
  stocked u hu := (h.stocked u hu).unmoved hs
  only row hr hp := by
    have he := hs.rows row.id
    rw [show s'.db.units.find? row.id = some row from Table.find?_of_mem hr] at he
    obtain ⟨row', hr', he'⟩ := Option.map_eq_some_iff.mp he.symm
    rw [←show row'.id = row.id from Table.key_of_find? hr']
    exact h.only row' (Table.mem_of_find? hr') ((congrArg Prod.fst he').trans hp)

-- The unit is written again, with the summary and the hash it has.
theorem Stocked.upsert {embedder : Embedder F} {summary : Option String} (h : s.Stocked u)
    (hs : (s.db.units.find? u.id).map UnitRow.essence = some (u.path, summary, u.codeHash)) :
    s.Unmoved (upsertUnit embedder (IndexStack.withSummary u summary) none s).state := by
  obtain ⟨w₁, hx⟩ :=
    (upsertUnit_post : (upsertUnit embedder (IndexStack.withSummary u summary) none).post _ s)
  obtain ⟨hc, _, hother, hvec⟩ := hx.of_none
  have hw : w₁ = s := hx.start
  subst hw
  refine ⟨.of_eq hc, fun i => ?_, hvec⟩
  by_cases hi : i = u.id
  case neg => rw [hother i hi]
  case pos =>
    obtain hu | hu := hx.stores.units <;> rw [hu]
    rw [hi, hs]
    exact congrArg (Option.map UnitRow.essence) Table.find?_insert_self

end World

namespace IndexStack

open Conn Coroutine World

variable {F : Floats} {stack : IndexStack F} {s s' : World F} {u : KnowledgeUnit} {us units : List KnowledgeUnit}
variable {filePath identity : String} {stored : Option String} {paths : List String}

theorem wp_call_unmoved {α : Type} {c : Conn F α} (h : ∀ s', s.Unmoved s' → s'.Unmoved (c s').state) :
    (call c).wp unmoved Unmoved (fun _ s' => s.Unmoved s') s :=
  wp_call fun s₁ h₁ => ⟨h s₁ h₁, fun _ h₂ => Unmoved.trans h₁ ((h s₁ h₁).trans h₂)⟩

private theorem error_ne {e : Exn} {α : Type} (a : α) : (Except.error e : Except Exn α) ≠ .ok a := by
  intro h
  cases h

-- A stocked unit is found to be up to date, whatever the other workers do to it.
theorem wp_processUnit_stocked (h : s.Stocked u) : (stack.processUnit false u).wp unmoved Unmoved
    (fun r s' => s.Unmoved s' ∧ ∀ unit, r ≠ .ok (some unit)) s := by
  unfold processUnit
  refine wp_bind (P := fun existing s' => s.Unmoved s' ∧ ∃ e, existing = some e ∧
    UnitRow.essence e.toUnitRow = (u.path, e.summary, u.codeHash) ∧ truthy e.summary ∧
      (s'.db.units.find? u.id).map UnitRow.essence = some (u.path, e.summary, u.codeHash))
    (wp_call fun s₁ h₁ => ?_) ?_
  · obtain ⟨hr, he⟩ := (getUnit_post : (getUnit u.id).post _ s₁)
    have hreads : s₁.Unmoved (getUnit u.id s₁).state := .of_reads hr
    refine ⟨hreads, fun s₂ h₂ => ?_⟩
    have hs₂ : s₁.Unmoved s₂ := hreads.trans h₂
    simp only [KnowledgeUnit.popRawCode_id]
    cases ho : (getUnit u.id s₁).outcome
    case error => exact ⟨Unmoved.trans h₁ hs₂, fun unit => error_ne (some unit)⟩
    case ok existing =>
      obtain ⟨t, ht, hrow⟩ := (h.unmoved h₁).row
      have hrow₂ := (hs₂.rows u.id).trans hrow
      rw [←he existing ho] at hrow
      obtain ⟨_, hmap, hess⟩ := Option.map_eq_some_iff.mp hrow
      obtain ⟨e, rfl, rfl⟩ := Option.map_eq_some_iff.mp hmap
      have hsum : e.summary = some t := congrArg (·.2.1) hess
      rw [←hsum] at hess hrow₂
      exact ⟨Unmoved.trans h₁ hs₂, e, rfl, hess, by simp [truthy, hsum, ht], hrow₂⟩
  rintro _ s₁ ⟨h₁, e, rfl, hess, htr, hrow⟩
  have hhash : e.codeHash = u.codeHash := congrArg (·.2.2) hess
  -- The summarizer is not asked.
  have hkeep : newSummary stack false u.popRawCode (some e) u.rawCode = pure e.summary := by
    unfold newSummary shouldDistillUnit
    rw [if_neg (by simp [htr, show u.popRawCode.codeHash = u.codeHash from rfl, hhash])]
    rfl
  rw [hkeep]
  show wp _ _ (call (hasEmbedding stack.embedder u.id) >>= _) _ _
  refine wp_bind (P := fun hasVec s' => s.Unmoved s' ∧ s₁.Unmoved s' ∧ hasVec = true)
    (wp_call fun s₂ h₂ => ?_) ?_
  · obtain ⟨hb, hv⟩ := (hasEmbedding_post : (hasEmbedding stack.embedder u.id).post _ s₂)
    have hbinds : s₂.Unmoved (hasEmbedding stack.embedder u.id s₂).state := .of_binds hb
    refine ⟨hbinds, fun s₃ h₃ => ?_⟩
    have hs₃ : s₁.Unmoved s₃ := Unmoved.trans h₂ (hbinds.trans h₃)
    cases ho : (hasEmbedding stack.embedder u.id s₂).outcome
    case error => exact ⟨h₁.trans hs₃, fun unit => error_ne (some unit)⟩
    case ok    =>
      refine ⟨h₁.trans hs₃, hs₃, (hv _ ho).trans ?_⟩
      exact (h.unmoved (h₁.trans h₂)).vec
  rintro _ s₂ ⟨h₂, h₁₂, rfl⟩
  have hneeds : unitNeedsEmbedding { u.popRawCode with summary := e.summary } (some e) true = false :=
    unitNeedsEmbedding_eq_false.mpr ⟨e, rfl, hhash, rfl, rfl⟩
  rw [hneeds]
  have hup : (call (upsertUnit stack.embedder (withSummary u e.summary) none)).wp unmoved Unmoved
      (fun _ s' => s₂.Unmoved s') s₂ := wp_call_unmoved fun s₃ h₃ =>
    (h.unmoved (h₂.trans h₃)).upsert (((h₁₂.trans h₃).rows u.id).trans hrow)
  refine wp_bind (P := fun _ s' => s.Unmoved s') (wp_mono hup ?_) fun _ s₃ h₃ =>
    wp_done fun s₄ h₄ => ⟨h₃.trans h₄, fun unit he => by cases he⟩
  rintro (e' | _) s₃ h₃
  case error => exact ⟨h₂.trans h₃, fun unit => error_ne (some unit)⟩
  case ok    => exact h₂.trans h₃

theorem wp_processUnits_stocked (h : ∀ u ∈ us, s.Stocked u) :
    (stack.processUnits false us).wp unmoved Unmoved
      (fun r s' => s.Unmoved s' ∧ ∀ pending, r = .ok pending → pending = []) s := by
  induction us generalizing s
  case nil => exact wp_done fun s' hs => ⟨hs, fun pending hp => by cases hp; rfl⟩
  case cons u us ih =>
    refine wp_bind (P := fun here s' => s.Unmoved s' ∧ here = none)
      (wp_mono (wp_processUnit_stocked (h u (.head _))) ?_) ?_
    · rintro (e | _ | unit) s' ⟨hs, hr⟩
      case error   => exact ⟨hs, nofun⟩
      case ok.none => exact ⟨hs, rfl⟩
      case ok.some => exact absurd rfl (hr unit)
    rintro _ s₁ ⟨h₁, rfl⟩
    refine wp_bind (P := fun rest s' => s.Unmoved s' ∧ rest = [])
      (wp_mono (ih fun u' hu => (h u' (.tail _ hu)).unmoved h₁) ?_) ?_
    · rintro (e | rest) s' ⟨hs, hr⟩
      case error => exact ⟨h₁.trans hs, nofun⟩
      case ok    => exact ⟨h₁.trans hs, hr rest rfl⟩
    rintro _ s₂ ⟨h₂, rfl⟩
    exact wp_done fun s' hs => ⟨h₂.trans hs, fun pending hp => by cases hp; rfl⟩

-- No unit is stale.
theorem deleteStaleUnits_unmoved (stack : IndexStack F) (h : s.StockedFile units identity) :
    s.Unmoved (deleteStaleUnits stack.embedder identity (units.map (·.id)) s).state := by
  obtain ⟨w₁, f, _, hb, hw, hd, _⟩ :=
    (deleteStaleUnits_post : (deleteStaleUnits stack.embedder identity (units.map (·.id))).post _ s)
  have hnone : ∀ row ∈ w₁.db.units, isStale identity (units.map (·.id)) row = false := by
    intro row hr
    by_cases hp : row.path = identity
    case neg => simp [isStale, hp]
    case pos =>
      have hm := h.only row (hb.db.units ▸ hr) hp
      simp only [isStale, hm, not_true, and_false, decide_false]
  have hwhere : ∀ i, w₁.db.unitIdWhere (isStale identity (units.map (·.id))) i = false := by
    intro i
    unfold Db.unitIdWhere
    cases hf : w₁.db.units.find? i
    case none     => rfl
    case some row => exact hnone row (Table.mem_of_find? hf)
  refine (Unmoved.of_binds hb).trans ⟨.of_eq (by rw [hw]), fun i => ?_, fun i => ?_⟩
  · obtain he | ⟨he, _⟩ := hd.units <;> rw [he]
    rw [Table.find?_delete_of_not fun row hr _ => hnone row hr]
  · obtain hv | ⟨hp, _⟩ := hd.vec i
    case inl => exact hv
    case inr => rw [hwhere i] at hp; cases hp

theorem wp_syncFile_stocked (h : ∀ units, stack.parser.distillFile filePath stored false = .ok units →
    s.StockedFile units (stored.getD filePath)) :
    (stack.syncFile false filePath stored).wp unmoved Unmoved (fun _ s' => s.Unmoved s') s := by
  cases hd : stack.parser.distillFile filePath stored false
  case error e => exact wp_mono (wp_syncFile_of_error false hd fun _ => .refl) fun _ _ hr => hr.left
  case ok units =>
    have hf := h units hd
    have hr : ∀ s : World F, (rejectDirtyIncremental s).state = s := by
      intro s
      unfold rejectDirtyIncremental
      split <;> rfl
    have hreject : (call rejectDirtyIncremental).wp unmoved Unmoved (fun _ s' => s.Unmoved s') s :=
      wp_call_unmoved fun s' _ => by rw [hr]; exact .refl
    refine wp_bind (P := fun _ s' => s.Unmoved s') (wp_mono hreject ?_) fun _ s₁ h₁ => ?_
    · rintro (e | _) s₁ h₁
      case error => exact h₁
      case ok    => exact h₁
    rw [hd]
    show wp _ _ (processUnits stack false units >>= _) _ _
    refine wp_bind (P := fun pending s' => s.Unmoved s' ∧ pending = [])
      (wp_mono (wp_processUnits_stocked fun u hu => (hf.stocked u hu).unmoved h₁) ?_) ?_
    · rintro (e | pending) s₂ ⟨h₂, hp⟩
      case error => exact h₁.trans h₂
      case ok    => exact ⟨h₁.trans h₂, hp pending rfl⟩
    rintro _ s₂ ⟨h₂, rfl⟩
    -- Nothing is to be embedded.
    have hnil : embedAndUpsert stack.embedder [] = pure () := by
      unfold embedAndUpsert
      rw [if_pos List.isEmpty_nil]
    rw [hnil]
    refine wp_bind (P := fun _ s' => s.Unmoved s') (wp_done fun s₃ h₃ => h₂.trans h₃) fun _ s₃ h₃ => ?_
    refine wp_mono (wp_call_unmoved fun s₄ h₄ => ?_) fun _ _ => h₃.trans
    exact deleteStaleUnits_unmoved stack (hf.unmoved (h₃.trans h₄))

-- A sync of files that are all stocked calls no model for a unit and changes no row in what a sync goes by,
-- however its workers are interleaved and whatever fails.
theorem unmoved_of_stocked {indexAll : Bool} {n : Nat} {r : Except Exn (List (String × String))}
    (hd : s.dirty = false)
    (hp : ∀ p ∈ paths, ∀ stored units, stack.parsesAt p stored units →
      s.StockedFile units (stored.getD p))
    (h : stack.SyncProject paths false indexAll n s r s') : s.Unmoved s' := by
  cases h
  case raised he =>
    rw [reembedIfDirty_of_clean hd] at he
    cases he
  case returned w₁ fs he hout =>
    rw [reembedIfDirty_of_clean hd] at he
    cases he
    refine hout.rel (R := fun _ => unmoved) (G := fun _ => Unmoved) (Q := fun _ _ s' => s.Unmoved s')
      (S := unmoved) ?_ (fun p hm => ?_) fun _ _ _ _ => id
    · exact List.pairwise_of_forall fun _ _ => ⟨fun _ _ => id, fun _ _ => id⟩
    · refine wp_syncPath (fun _ => .refl) (fun _ h _ => h) fun stored units hpar => ?_
      refine wp_syncFile_stocked fun units' hd' => hp p hm stored units' ⟨hpar.left, hd'⟩

section Sample

private def shelf : IndexStack naturals :=
  Sample.stack "m" [("/r/a.py", "f=1\ng=2"), ("/r/b.py", "h=3"), ("/r/c.py", "k=4")] "s" (some "/r")

private def shelved : List String :=
  ["/r/a.py", "/r/b.py", "/r/c.py"]

-- All files are stored. One of the statements to come fails.
private def filled : World naturals :=
  (Sample.worked shelf shelved (.opened (Sample.embedder "m") .empty false none noFaults)).2.withFaults (· = 10)

private def label (u : KnowledgeUnit) : String × String × String :=
  (u.id, u.path, u.codeHash)

private theorem stockedFile_filled {path stored : String} {units : List KnowledgeUnit}
    (labels : List (String × String × String))
    (hl : (shelf.parser.distillFile path (some stored) false).map (·.map label) = .ok labels)
    (hs : ∀ l ∈ labels, (filled.db.vec? l.1).isSome ∧
      (filled.db.units.find? l.1).map UnitRow.essence = some (l.2.1, some "s", l.2.2))
    (ho : ∀ row ∈ filled.db.units.rows, row.path = stored → row.id ∈ labels.map Prod.fst)
    (h : shelf.parser.distillFile path (some stored) false = .ok units) :
    filled.StockedFile units stored := by
  have hu : units.map label = labels := by
    rw [h] at hl
    exact Except.ok.inj hl
  refine ⟨fun u hm => ?_, fun row hr hp => ?_⟩
  · have ⟨hv, hrow⟩ := hs (label u) (hu ▸ List.mem_map_of_mem hm)
    exact ⟨hv, "s", by decide, hrow⟩
  · have hids := ho row (Table.mem_rows.mpr hr) hp
    rwa [←hu, List.map_map] at hids

-- The two workers take turns.
private def checked : Pool String (World naturals) Exn :=
  (Pool.start shelved 2 filled).follow (shelf.syncPath false) (List.replicate 60 [0, 1]).flatten

theorem unmoved_of_stocked_sample :
    shelf.SyncProject shelved false true 2 filled
      (.ok (checked.failures.map reportWorkerFailure)) checked.state ∧
    checked.failures.map Prod.fst = ["/r/b.py"] ∧ filled.Unmoved checked.state := by
  have hclean : filled.dirty = false := by decide +kernel
  have hsync : shelf.SyncProject shelved false true 2 filled
      (.ok (checked.failures.map reportWorkerFailure)) checked.state :=
    .returned (reembedIfDirty_of_clean hclean)
      ⟨checked, Pool.follow_steps _, by decide +kernel, rfl, rfl⟩
  refine ⟨hsync, by decide +kernel, unmoved_of_stocked hclean (fun p hp stored units hpar => ?_) hsync⟩
  obtain ⟨hs, hd⟩ := hpar
  simp only [shelved, List.mem_cons, List.not_mem_nil, or_false] at hp
  obtain rfl | rfl | rfl := hp
  · cases (show shelf.storedPath "/r/a.py" = .ok (some "a.py") by decide +kernel).symm.trans hs
    exact stockedFile_filled [("a.py:f", "a.py", "1"), ("a.py:g", "a.py", "2")]
      (by decide +kernel) (by decide +kernel) (by decide +kernel) hd
  · cases (show shelf.storedPath "/r/b.py" = .ok (some "b.py") by decide +kernel).symm.trans hs
    exact stockedFile_filled [("b.py:h", "b.py", "3")]
      (by decide +kernel) (by decide +kernel) (by decide +kernel) hd
  · cases (show shelf.storedPath "/r/c.py" = .ok (some "c.py") by decide +kernel).symm.trans hs
    exact stockedFile_filled [("c.py:k", "c.py", "4")]
      (by decide +kernel) (by decide +kernel) (by decide +kernel) hd

end Sample
end IndexStack
