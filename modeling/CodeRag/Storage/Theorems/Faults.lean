import CodeRag.Storage.DuckDB

-- Every operation uses up faults in their order, so what holds of all faults of a state holds of all
-- faults of the states after it, and an operation does what it does without faults until one occurs.

namespace World

variable {F : Floats} {w w' : World F}

def later : Rely (World F) where
  rel w w' := ∃ n, w'.faults = fun k => w.faults (k + n)
  refl _   := ⟨0, rfl⟩
  trans    := by
    rintro w₁ w₂ w₃ ⟨n, hn⟩ ⟨n', hn'⟩
    exact ⟨n' + n, by simp only [hn', hn, Nat.add_assoc]⟩

theorem later_tick : later w w.tick :=
  ⟨1, rfl⟩

theorem later_of_faults_eq (h : w'.faults = w.faults) : later w w' :=
  ⟨0, h⟩

theorem later_of_tick (h : w'.faults = w.tick.faults) : later w w' :=
  ⟨1, h⟩

theorem FaultFree.later (h : w.FaultFree) (hl : World.later w w') : w'.FaultFree := by
  obtain ⟨n, hn⟩ := hl
  rw [FaultFree, hn]
  exact funext fun k => h.faults_eq

def withFaults (w : World F) (φ : Nat → Bool) : World F :=
  { w with faults := φ }

@[simp] theorem withFaults_db {φ : Nat → Bool} : (w.withFaults φ).db = w.db := rfl
@[simp] theorem withFaults_saved {φ : Nat → Bool} : (w.withFaults φ).saved = w.saved := rfl
@[simp] theorem withFaults_mode {φ : Nat → Bool} : (w.withFaults φ).mode = w.mode := rfl

-- No fault occurs in the first `k` steps.
def delay (k : Nat) (φ : Nat → Bool) (n : Nat) : Bool :=
  if n < k then false else φ (n - k)

theorem delay_add {k l : Nat} {φ : Nat → Bool} : delay (k + l) φ = delay k (delay l φ) := by
  funext n
  unfold delay
  by_cases hk : n < k
  case pos => rw [if_pos hk, if_pos (by omega)]
  case neg =>
    rw [if_neg hk]
    by_cases hl : n - k < l
    case pos => rw [if_pos hl, if_pos (by omega)]
    case neg => rw [if_neg hl, if_neg (by omega), Nat.sub_sub]

-- A session that only reads changes no table.
def guarded : Rely (World F) where
  rel w w' := w'.saved = w.saved ∧ w'.mode = w.mode ∧ (w.mode = .readOnly → w'.db = w.db)
  refl _   := ⟨rfl, rfl, fun _ => rfl⟩
  trans    := by
    rintro w₁ w₂ w₃ ⟨hs, hm, hd⟩ ⟨hs', hm', hd'⟩
    exact ⟨hs'.trans hs, hm'.trans hm, fun h => (hd' (hm.trans h)).trans (hd h)⟩

end World

namespace Conn

open EStateM World

variable {F : Floats} {α β : Type} {embedder : Embedder F} {x : Conn F α} {w : World F}

-- A step that does not look at the faults to come and takes part in no transaction.
structure Plain (f : World F → EStateM.Result Exn (World F) α) : Prop where
  faults  : ∀ w φ, f (w.withFaults φ) = (f w).mapState (·.withFaults φ)
  guarded : ∀ w, guarded w (f w).state

-- Work that consists of such steps.
inductive Built {F : Floats} : {α : Type} → Conn F α → Prop
  | plain {α : Type} {f : World F → EStateM.Result Exn (World F) α} :
      Plain f → Built f
  | step {α : Type} {f g : World F → EStateM.Result Exn (World F) α} :
      Plain f → Plain g → Built fun w => if w.faults 0 then f w.tick else g w.tick
  | get {α : Type} {f : World F → Conn F α} :
      (∀ w, Built (f w)) → (∀ w φ, f (w.withFaults φ) = f w) → Built (get >>= f)
  | bind {α β : Type} {x : Conn F α} {f : α → Conn F β} :
      Built x → (∀ a, Built (f a)) → Built (x >>= f)
  | tryCatch {α : Type} {x : Conn F α} {f : Exn → Conn F α} :
      Built x → (∀ e, Built (f e)) → Built (tryCatch x f)

theorem Plain.faults_eq {f : World F → EStateM.Result Exn (World F) α} (h : Plain f) :
    (f w).state.faults = w.faults := by
  have hw : f w = (f w).mapState (·.withFaults w.faults) := h.faults w w.faults
  rw [hw]
  cases f w <;> rfl

namespace Built

theorem pure {a : α} : Built (pure a : Conn F α) :=
  .plain ⟨fun _ _ => rfl, guarded.refl⟩

theorem throw {e : Exn} : Built (throw e : Conn F α) :=
  .plain ⟨fun _ _ => rfl, guarded.refl⟩

theorem forM {f : α → Conn F PUnit} (hf : ∀ a, Built (f a)) (l : List α) : Built (l.forM f) := by
  induction l
  case nil         => exact .pure
  case cons a l ih => exact .bind (hf a) fun _ => ih

theorem later (h : Built x) : x.Within later := by
  induction h
  case plain hf       => exact fun w => later_of_faults_eq hf.faults_eq
  case get hf         => exact fun w => hf w w
  case bind hx hf     => exact .bind hx hf
  case tryCatch hx hf => exact .tryCatch hx hf
  case step hf hg =>
    intro w
    dsimp only
    split
    case isTrue  => exact later_of_tick hf.faults_eq
    case isFalse => exact later_of_tick hg.faults_eq

theorem guarded (h : Built x) : x.Within guarded := by
  induction h
  case plain hf       => exact hf.guarded
  case get hf         => exact fun w => hf w w
  case bind hx hf     => exact .bind hx hf
  case tryCatch hx hf => exact .tryCatch hx hf
  case step hf hg =>
    intro w
    dsimp only
    split
    case isTrue  => exact hf.guarded w.tick
    case isFalse => exact hg.guarded w.tick

-- Until a fault occurs, everything is as it is without faults.
theorem delayed (h : Built x) (hw : w.FaultFree) :
    ∃ k, ∀ φ, x (w.withFaults (delay k φ)) = (x w).mapState (·.withFaults φ) := by
  induction h generalizing w
  case plain hf => exact ⟨0, fun φ => hf.faults w φ⟩
  case step hf hg =>
    refine ⟨1, fun φ => ?_⟩
    have hd : (w.withFaults (delay 1 φ)).faults 0 = false := rfl
    dsimp only
    rw [hd, hw.faults_eq, if_neg (by decide), if_neg (by decide), hw.tick]
    exact hg.faults w φ
  case get hf ih =>
    obtain ⟨k, hk⟩ := ih w hw
    exact ⟨k, fun φ => by rw [get_bind, get_bind, hf, hk φ]⟩
  case bind x f hx _ ihx ihf =>
    obtain ⟨k, hk⟩ := ihx hw
    have hl := hx.later w
    cases hr : x w <;> rw [hr] at hl
    case error e w' => exact ⟨k, fun φ => by
      rw [bind_of_error hr, bind_of_error ((hk φ).trans (by rw [hr]; rfl))]; rfl⟩
    case ok a w' =>
      obtain ⟨l, hl⟩ := ihf a (hw.later hl)
      refine ⟨k + l, fun φ => ?_⟩
      rw [delay_add, bind_of_ok hr, bind_of_ok ((hk _).trans (by rw [hr]; rfl))]
      exact hl φ
  case tryCatch x f hx _ ihx ihf =>
    obtain ⟨k, hk⟩ := ihx hw
    have hl := hx.later w
    cases hr : x w <;> rw [hr] at hl
    case ok a w' => exact ⟨k, fun φ => by
      rw [tryCatch_of_ok hr, tryCatch_of_ok ((hk φ).trans (by rw [hr]; rfl))]; rfl⟩
    case error e w' =>
      obtain ⟨l, hl⟩ := ihf e (hw.later hl)
      refine ⟨k + l, fun φ => ?_⟩
      rw [delay_add, tryCatch_of_error hr, tryCatch_of_error ((hk _).trans (by rw [hr]; rfl))]
      exact hl φ

end Built

theorem statement_built {f : World F → EStateM.Result Exn (World F) α} (hf : Plain f) :
    Built (statement f) :=
  .step ⟨fun _ _ => rfl, World.guarded.refl⟩ hf

theorem select_built {f : Db F → α} : Built (select f) :=
  statement_built ⟨fun _ _ => rfl, World.guarded.refl⟩

theorem execute_built {f : Db F → Except Exn (Db F)} : Built (execute f) := by
  refine statement_built ⟨fun w φ => ?_, fun w => ?_⟩
  · rw [withFaults_mode, withFaults_db]
    split
    · rfl
    · split <;> rfl
  · split
    · exact World.guarded.refl w
    · split
      · exact ⟨rfl, rfl, fun h => by simp_all⟩
      · exact World.guarded.refl w

theorem schemaVecWidth_built : Built (schemaVecWidth (F := F)) := by
  refine statement_built ⟨fun w φ => ?_, fun w => ?_⟩
  · rw [withFaults_db]
    split <;> rfl
  · split <;> exact World.guarded.refl w

theorem metaGet_built {k : String} : Built (metaGet (F := F) k) := by
  refine .bind select_built fun b => ?_
  split
  · exact select_built
  · exact .pure

theorem metaSet_built {k v : String} : Built (metaSet (F := F) k v) :=
  execute_built

theorem dimension_built : Built (dimension (F := F)) := by
  refine .plain ⟨fun w φ => ?_, fun w => ?_⟩
  · unfold dimension World.withFaults
    dsimp only
    split <;> rfl
  · unfold dimension
    split <;> exact World.guarded.refl w

theorem bindDimension_built {n : Nat} : Built (bindDimension (F := F) n) := by
  refine .plain ⟨fun w φ => ?_, fun w => ?_⟩
  · unfold bindDimension World.withFaults
    dsimp only
    split
    · rfl
    · split
      · rfl
      · split <;> rfl
  · unfold bindDimension
    split
    · exact World.guarded.refl w
    · split
      · exact ⟨rfl, rfl, fun _ => rfl⟩
      · split <;> exact World.guarded.refl w

-- What `aembed` does with an answer of the model.
def answered (texts : List String) (answer : Except Exn (List (List F))) (w : World F) :
    EStateM.Result Exn (World F) (List (List F)) :=
  match answer with
  | .ok vectors => .ok vectors { w with calls := w.calls ++ [.aembed texts] }
  | .error e    => .error e { w with calls := w.calls ++ [.aembed texts] }

theorem plain_answered {texts : List String} (answer : Option Nat → Except Exn (List (List F))) :
    Plain fun w => answered texts (answer w.dimension) w := by
  refine ⟨fun w φ => ?_, fun w => ?_⟩
  · show answered texts (answer w.dimension) (w.withFaults φ) = _
    cases answer w.dimension <;> rfl
  · cases answer w.dimension <;> exact ⟨rfl, rfl, fun _ => rfl⟩

theorem aembed_built {texts : List String} : Built (aembed embedder texts) :=
  .step (plain_answered fun _ => .error (.intelligence "Embedding request failed"))
    (plain_answered fun d => embedder.aembed d texts)

theorem probeOrBindDimension_built : Built (probeOrBindDimension embedder) := by
  refine .tryCatch ?_ fun _ => .bind aembed_built fun rows => ?_
  · exact .bind dimension_built fun _ => .bind bindDimension_built fun _ => .pure
  · split
    · exact .throw
    · exact .throw
    · exact .bind bindDimension_built fun _ => .pure

theorem bindEmbedderToTarget_built {n : Nat} : Built (bindEmbedderToTarget (F := F) n) := by
  refine .get (fun w => ?_) fun _ _ => rfl
  dsimp only
  split
  · exact .throw
  · exact .bind bindDimension_built fun _ => .pure

theorem bindEmbedderDimension_built {wiped readOnly : Bool} :
    Built (bindEmbedderDimension embedder wiped readOnly) := by
  have hs : Built (readState (F := F) wiped) := by
    unfold readState
    split
    · exact .pure
    · refine .bind select_built fun b => ?_
      split
      · exact .bind metaGet_built fun _ => .bind metaGet_built fun _ =>
          .bind schemaVecWidth_built fun _ => .pure
      · exact .pure
  refine .bind hs fun r => ?_
  split
  · exact probeOrBindDimension_built
  · refine .bind ?_ fun n => ?_
    · cases parsePositiveDim _
      · exact .throw
      · exact .pure
    · split
      · exact .throw
      · split
        · exact bindEmbedderToTarget_built
        · exact probeOrBindDimension_built
  · refine .bind ?_ fun _ => ?_
    · split
      · exact .pure
      · exact .bind metaSet_built fun _ => metaSet_built
    · split
      · exact bindEmbedderToTarget_built
      · exact probeOrBindDimension_built

theorem createEmbeddings_built {n : Nat} : Built (createEmbeddings (F := F) n) := by
  unfold createEmbeddings
  split
  · exact execute_built
  · exact .throw

theorem createTableAndSyncMeta_built {n : Nat} : Built (createTableAndSyncMeta embedder n) := by
  refine .bind (.bind select_built fun b => ?_) fun d => .bind metaGet_built fun m => ?_
  · split
    · exact schemaVecWidth_built
    · exact .pure
  · split
    · exact .throw
    · refine .get (fun w => ?_) fun _ _ => rfl
      split
      · exact .pure
      · refine .bind createEmbeddings_built fun _ => .bind metaSet_built fun _ => ?_
        split
        · exact metaSet_built
        · exact .pure

theorem ensureEmbeddingsBound_built : Built (ensureEmbeddingsBound embedder) := by
  have hr : Built (requireTable (F := F)) := by
    refine .get (fun w => ?_) fun _ _ => rfl
    split
    · exact .pure
    · refine .bind select_built fun b => ?_
      split
      · exact .pure
      · exact .throw
  refine .get (fun w => ?_) fun _ _ => rfl
  split
  · exact .pure
  · refine .bind (.bind hr fun _ => .get (fun w => ?_) fun _ _ => rfl) fun _ =>
      .plain ⟨fun _ _ => rfl, fun _ => ⟨rfl, rfl, fun _ => rfl⟩⟩
    exact .bind bindEmbedderDimension_built fun _ => createTableAndSyncMeta_built

theorem upsertUnit_built {u : KnowledgeUnit} {vector : Option (List F)} :
    Built (upsertUnit embedder u vector) := by
  refine .bind ?_ fun _ => .bind execute_built fun _ => .bind ?_ fun _ =>
    .forM (fun _ => execute_built) _
  · split
    · exact ensureEmbeddingsBound_built
    · exact .pure
  · split
    · exact execute_built
    · exact .pure

theorem getUnit_built {i : String} : Built (getUnit (F := F) i) := by
  refine .bind select_built fun r => ?_
  split
  · exact .pure
  · exact .bind select_built fun _ => .pure

theorem deleteStaleUnits_built {path : String} {ids : List String} :
    Built (deleteStaleUnits embedder path ids) :=
  .bind ensureEmbeddingsBound_built fun _ => .bind execute_built fun _ =>
    .bind execute_built fun _ => execute_built

end Conn
