import CodeRag.Storage.Theorems.Bind
import CodeRag.Storage.Theorems.Faults

-- What binding an embedder does when no statement fails.

namespace World

variable {F : Floats} {w : World F}

-- An index that is open for writing, on which no statement fails.
structure Ready (w : World F) : Prop where
  faultFree : w.FaultFree
  mode      : w.mode = .readWrite
  indexMeta : w.db.indexMeta.isSome

theorem Ready.binds {w' : World F} {m : String} (h : w.Ready) (hb : w.Binds m w') (hl : later w w') :
    w'.Ready where
  faultFree := h.faultFree.later hl
  mode      := hb.mode.trans h.mode
  indexMeta := by rw [hb.db.indexMeta]; exact h.indexMeta

theorem Ready.of_db {db : Db F} (h : w.Ready) (hi : db.indexMeta.isSome) :
    ({ w with db := db } : World F).Ready where
  faultFree := h.faultFree
  mode      := h.mode
  indexMeta := hi

end World

-- How the width of an embedder is found.
inductive BindPlan
  | fails (e : Exn)
  | target (n : Nat)
  | probe

-- The width of a table is read back as it was written.
theorem Conn.parsePositiveDim_toString {n : Nat} (h : ArraySize n) :
    parsePositiveDim (toString n) = .ok n := by
  have hl : (toString n).length ≤ MAX_STR_DIGITS := by
    refine (Nat.length_repr_le_iff (by decide)).mpr ?_
    calc n < 10 ^ 6            := Nat.lt_of_le_of_lt h.le (by decide)
      _ ≤ 10 ^ MAX_STR_DIGITS := Nat.pow_le_pow_right (by decide) (by decide)
  have hn : ¬n < 1 := Nat.not_lt.mpr h.pos
  simp only [parsePositiveDim, strip_toString, parseDigits_toString, if_neg (Nat.not_lt.mpr hl), if_neg hn]

namespace Db

variable {F : Floats} {db : Db F} {model : String} {n : Nat} {wiped : Bool}

def lacksMeta (db : Db F) : Bool :=
  (db.meta? META_DIM_KEY).isNone || (db.meta? META_MODEL_KEY).isNone

-- The width that is assumed of a table without a recorded one.
def inferredWidth (db : Db F) : Nat :=
  db.width?.getD EMBEDDING_DIM

theorem width_size (h : db.width? = some n) : ArraySize n := by
  obtain ⟨e, _, hw⟩ := Option.bind_eq_some_iff.mp h
  exact e.width_size n hw

theorem inferredWidth_size : ArraySize db.inferredWidth := by
  unfold inferredWidth
  cases h : db.width?
  case none   => decide
  case some n => exact width_size h

def fillMeta (db : Db F) : Db F :=
  (db.setMeta META_DIM_KEY (toString db.inferredWidth)).setMeta META_MODEL_KEY
    LOCAL_EMBEDDING_MODEL_ID

-- The keys that describe the table are filled in when one of them is missing.
def inferMeta (db : Db F) (wiped : Bool) : Db F :=
  if !wiped && db.embeddings.isSome && db.lacksMeta then db.fillMeta else db

def bindPlan (db : Db F) (model : String) (wiped : Bool) : BindPlan :=
  if wiped || db.embeddings.isNone then
    .probe
  else
    match db.meta? META_DIM_KEY, db.meta? META_MODEL_KEY with
    | some raw, some m =>
      match Conn.parsePositiveDim raw with
      | .error e => .fails e
      | .ok n    =>
        if db.width?.isSome ∧ db.width? ≠ some n then .fails Conn.corruptMetadata
        else if m = model then .target (db.width?.getD n)
        else .probe
    | _, _ => if model = LOCAL_EMBEDDING_MODEL_ID then .target db.inferredWidth else .probe

-- There is a table of vectors of width `n`, or one can be created.
structure Admits (db : Db F) (n : Nat) : Prop where
  size  : ArraySize n
  width : db.width?.isSome → db.width? = some n

instance : Decidable (db.Admits n) :=
  decidable_of_iff (ArraySize n ∧ (db.width?.isSome → db.width? = some n))
    ⟨fun h => ⟨h.left, h.right⟩, fun h => ⟨h.size, h.width⟩⟩

-- The error that tells that there is none.
def refusal (db : Db F) (n : Nat) : Exn :=
  if db.width?.isSome ∧ db.width? ≠ some n then
    Conn.dimensionMismatch (db.width?.getD 0) n
  else
    Conn.arrayTooLarge

theorem admits_congr {db' : Db F} (h : db'.width? = db.width?) : db'.Admits n ↔ db.Admits n :=
  ⟨fun ht => ⟨ht.size, h ▸ ht.width⟩, fun ht => ⟨ht.size, h.symm ▸ ht.width⟩⟩

theorem refusal_congr {db' : Db F} (h : db'.width? = db.width?) : db'.refusal n = db.refusal n := by
  simp only [refusal, h]

-- The table and the keys that describe it, once the width of the embedder is known.
def finishBind (db : Db F) (model : String) (n : Nat) (h : ArraySize n) : Db F :=
  let db' := { db with embeddings := some (db.embeddings.getD (.create n h)) }
  let db' := db'.setMeta META_DIM_KEY (toString n)
  if db.meta? META_MODEL_KEY = none then db'.setMeta META_MODEL_KEY model else db'

@[simp]
theorem inferMeta_embeddings : (db.inferMeta wiped).embeddings = db.embeddings := by
  unfold inferMeta
  split <;> rfl

@[simp]
theorem inferMeta_width? : (db.inferMeta wiped).width? = db.width? := by
  simp [width?]

@[simp]
theorem inferMeta_isSome : (db.inferMeta wiped).indexMeta.isSome = db.indexMeta.isSome := by
  unfold inferMeta
  split <;> simp [fillMeta]

variable {m k : String} {h : ArraySize n}

@[simp]
theorem finishBind_units : (db.finishBind model n h).units = db.units := by
  unfold finishBind
  dsimp only
  split <;> rfl

@[simp]
theorem finishBind_embeddings :
    (db.finishBind model n h).embeddings = some (db.embeddings.getD (.create n h)) := by
  unfold finishBind
  dsimp only
  split <;> rfl

theorem finishBind_isSome (hi : db.indexMeta.isSome) :
    (db.finishBind model n h).indexMeta.isSome := by
  unfold finishBind
  dsimp only
  split <;> simpa using hi

theorem meta?_finishBind (hi : db.indexMeta.isSome) : (db.finishBind model n h).meta? k =
    if k = META_MODEL_KEY then (db.meta? META_MODEL_KEY).or (some model)
    else if k = META_DIM_KEY then some (toString n) else db.meta? k := by
  have h₁ : ∀ k, (({ db with embeddings := some (db.embeddings.getD (.create n h)) } : Db F).setMeta
      META_DIM_KEY (toString n)).meta? k = if k = META_DIM_KEY then some (toString n) else db.meta? k :=
    fun k => meta?_setMeta hi
  unfold finishBind
  dsimp only
  by_cases hm : db.meta? META_MODEL_KEY = none
  case pos =>
    rw [if_pos hm, meta?_setMeta (by simpa using hi), h₁, hm]
    rfl
  case neg =>
    rw [if_neg hm, h₁]
    by_cases hk : k = META_MODEL_KEY
    case pos =>
      subst hk
      obtain ⟨m, hm⟩ := Option.ne_none_iff_exists'.mp hm
      rw [if_pos rfl, if_neg (by decide), hm]
      rfl
    case neg => rw [if_neg hk]

end Db

namespace World

variable {F : Floats} {w w' w'' : World F}

-- The embedder turns out to be bound to `d` or is bound to it, after `k` probes.
def probed (w : World F) (d : Option Nat) (k : Nat) : World F :=
  { w with dimension := d, calls := w.calls ++ List.replicate k (.aembed [EMBEDDING_PROBE_TEXT]) }

@[simp] theorem probed_db {d : Option Nat} {k : Nat} : (w.probed d k).db = w.db := rfl

-- The two states agree on what a session needs to find the width of its embedder.
structure SamePlan (embedder : Embedder F) (w w' : World F) : Prop where
  plan      : w'.db.bindPlan embedder.modelId w'.pendingWipe =
    w.db.bindPlan embedder.modelId w.pendingWipe
  width     : w'.db.width? = w.db.width?
  bound     : w'.bound = w.bound
  dimension : w'.dimension = w.dimension

theorem SamePlan.refl {embedder : Embedder F} : SamePlan embedder w w :=
  ⟨rfl, rfl, rfl, rfl⟩

end World

namespace Conn

open EStateM World

variable {F : Floats} {w : World F} {embedder : Embedder F} {k v : String} {n : Nat}

theorem embeddingsTableExists_of_faultFree (h : w.FaultFree) :
    embeddingsTableExists w = .ok w.db.embeddings.isSome w :=
  select_of_faultFree h

theorem metaGet_of_faultFree (h : w.FaultFree) : metaGet k w = .ok (w.db.meta? k) w := by
  unfold metaGet indexMetaTableExists
  rw [bind_of_ok (select_of_faultFree h)]
  split
  case isTrue    => exact select_of_faultFree h
  case isFalse hi => simp [Db.meta?, Option.not_isSome_iff_eq_none.mp hi]

theorem schemaVecWidth_of_faultFree (h : w.FaultFree) (he : w.db.embeddings.isSome) :
    schemaVecWidth w = .ok w.db.width? w := by
  obtain ⟨e, he⟩ := Option.isSome_iff_exists.mp he
  unfold schemaVecWidth
  rw [statement_of_faultFree h]
  simp [he, Db.width?]

theorem metaSet_of_ready (h : w.Ready) :
    metaSet k v w = .ok () { w with db := w.db.setMeta k v } := by
  unfold metaSet
  rw [execute_of_faultFree h.faultFree h.mode, if_pos h.indexMeta]

theorem Ready.setMeta (h : w.Ready) : ({ w with db := w.db.setMeta k v } : World F).Ready :=
  h.of_db (by simpa using h.indexMeta)

theorem readState_of_faultFree {wiped : Bool} (h : w.FaultFree) : readState wiped w =
    .ok (if wiped || w.db.embeddings.isNone then none
      else some (w.db.meta? META_DIM_KEY, w.db.meta? META_MODEL_KEY, w.db.width?)) w := by
  unfold readState
  cases wiped
  case true  => rfl
  case false =>
    rw [if_neg (by simp), bind_of_ok (embeddingsTableExists_of_faultFree h)]
    cases he : w.db.embeddings.isSome
    case false => simp [Option.isSome_eq_false_iff.mp he]
    case true  =>
      rw [if_pos rfl, bind_of_ok (metaGet_of_faultFree h), bind_of_ok (metaGet_of_faultFree h),
        bind_of_ok (schemaVecWidth_of_faultFree h he)]
      simp [Option.isNone_eq_false_iff.mpr he]

-- Carries out a plan.
def runPlan (embedder : Embedder F) : BindPlan → Conn F Nat
  | .fails e  => throw e
  | .target n => bindEmbedderToTarget n
  | .probe    => probeOrBindDimension embedder

-- The tables after the missing keys are filled in, which a read-only session leaves out.
def planDb (db : Db F) (wiped readOnly : Bool) : Db F :=
  if readOnly then db else db.inferMeta wiped

theorem bindToRecorded_eq {raw m : String} (he : w.db.embeddings.isSome)
    (hd : w.db.meta? META_DIM_KEY = some raw) (hm : w.db.meta? META_MODEL_KEY = some m) :
    bindToRecorded embedder raw m w.db.width? =
      runPlan embedder (w.db.bindPlan embedder.modelId false) := by
  have hn : w.db.embeddings.isNone = false := Option.isNone_eq_false_iff.mpr he
  simp only [bindToRecorded, Db.bindPlan, hn, hd, hm, Bool.or_self, Bool.false_eq_true, if_false]
  cases parsePositiveDim raw
  case error e => rfl
  case ok n    =>
    refine (pure_bind _ _).trans ?_
    dsimp only
    split
    · rfl
    · split <;> rfl

theorem bindEmbedderDimension_eq {wiped readOnly : Bool} (h : w.FaultFree)
    (hr : readOnly = false → w.Ready) : bindEmbedderDimension embedder wiped readOnly w =
      runPlan embedder (w.db.bindPlan embedder.modelId wiped)
        { w with db := planDb w.db wiped readOnly } := by
  unfold bindEmbedderDimension
  rw [bind_of_ok (readState_of_faultFree h)]
  have hkeep : w.db.inferMeta wiped = w.db → ({ w with db := planDb w.db wiped readOnly } : World F) = w := by
    intro hi
    simp [planDb, hi]
  cases hw : wiped || w.db.embeddings.isNone
  case true =>
    have hi : w.db.inferMeta wiped = w.db := by
      unfold Db.inferMeta
      rw [if_neg]
      cases wiped <;> simp_all
    simp [Db.bindPlan, hw, hkeep hi, runPlan]
  case false =>
    have hi : (!wiped && w.db.embeddings.isSome) = true := by
      cases wiped <;> simp_all
    -- Without one of the two keys, both are filled in.
    have hlacks : ∀ (hl : w.db.lacksMeta = true),
        bindToInferred embedder w.db.inferredWidth readOnly w = runPlan embedder
          (if embedder.modelId = LOCAL_EMBEDDING_MODEL_ID then .target w.db.inferredWidth else .probe)
          { w with db := planDb w.db wiped readOnly } := by
      intro hl
      unfold bindToInferred writeInferred
      cases hro : readOnly
      case true =>
        simp only [planDb, if_true]
        refine (bind_of_ok rfl).trans ?_
        split <;> rfl
      case false =>
        have h := hr hro
        simp only [planDb, Db.inferMeta, hi, hl, Bool.and_self, if_true, Bool.false_eq_true, if_false]
        rw [bind_of_ok ((bind_of_ok (metaSet_of_ready h)).trans (metaSet_of_ready (Ready.setMeta h)))]
        split <;> rfl
    have ⟨hwiped, he⟩ : wiped = false ∧ w.db.embeddings.isSome := by simpa using hi
    cases hd : w.db.meta? META_DIM_KEY <;> cases hm : w.db.meta? META_MODEL_KEY
    case some.some raw m =>
      have hi' : w.db.inferMeta wiped = w.db := by
        simp [Db.inferMeta, Db.lacksMeta, hd, hm]
      rw [hkeep hi', if_neg (by decide), hwiped]
      exact congrFun (bindToRecorded_eq he hd hm) w
    all_goals
      have hl : w.db.lacksMeta := by simp [Db.lacksMeta, hd, hm]
      simp only [Db.bindPlan, hw, hd, hm, if_false, Bool.false_eq_true]
      exact hlacks hl

-- A width that a plan can lead to.
structure Reaches (embedder : Embedder F) (plan : BindPlan) (d : Option Nat) (n : Nat) : Prop where
  sound     : ∀ e, plan ≠ .fails e
  pos       : 0 < n
  dimension : d = none ∨ d = some n
  target    : ∀ t, plan = .target t → n = t
  probe     : plan = .probe → d = none →
    ∃ v vs, embedder.aembed none [EMBEDDING_PROBE_TEXT] = .ok (v :: vs) ∧ v.length = n

variable {d : Option Nat}

theorem bindDimension_ok (hn : 0 < n) (hd : w.dimension = none ∨ w.dimension = some n) :
    bindDimension n w = .ok () { w with dimension := some n } := by
  unfold bindDimension
  rw [if_neg (by omega)]
  obtain hd | hd := hd
  case inl => simp [hd]
  case inr =>
    rw [show ({ w with dimension := some n } : World F) = w by rw [←hd]]
    simp [hd]

theorem bindDimension_error (h : ¬(0 < n ∧ (d = none ∨ d = some n))) :
    ∃ e, ∀ w : World F, w.dimension = d → bindDimension n w = .error e w := by
  unfold bindDimension
  by_cases hn : n < 1
  case pos => exact ⟨_, fun w _ => by rw [if_pos hn]⟩
  case neg =>
    cases d
    case none   => exact absurd ⟨by omega, .inl rfl⟩ h
    case some m =>
      have hm : n ≠ m := fun he => h ⟨by omega, .inr (he ▸ rfl)⟩
      exact ⟨_, fun w hd => by simp only [if_neg hn, hd, hm, ne_eq, not_false_eq_true, if_true]; rfl⟩

theorem aembed_of_faultFree (h : w.FaultFree) {texts : List String} :
    aembed embedder texts w = match embedder.aembed w.dimension texts with
      | .ok vectors => .ok vectors { w with calls := w.calls ++ [.aembed texts] }
      | .error e    => .error e { w with calls := w.calls ++ [.aembed texts] } := by
  unfold aembed
  rw [h.faults_eq, h.tick]
  rfl

-- The part of a probe that is tried first.
def boundDimension : Conn F Nat := do
  let already ← dimension
  bindDimension already
  pure already

theorem boundDimension_eq :
    (∃ k, 0 < k ∧ d = some k ∧ ∀ w : World F, w.dimension = d → boundDimension w = .ok k w) ∨
      (∀ k, d = some k → k = 0) ∧
        ∃ e, ∀ w : World F, w.dimension = d → boundDimension w = .error e w := by
  cases d
  case none =>
    refine .inr ⟨nofun, .intelligence "Embedding dimension is not bound", ?_⟩
    exact fun w hd => bind_of_error (by simp [dimension, hd])
  case some k =>
    have hk : ∀ w : World F, w.dimension = some k → dimension w = .ok k w :=
      fun w hd => by simp [dimension, hd]
    by_cases hp : 0 < k
    case pos =>
      refine .inl ⟨k, hp, rfl, fun w hd => (bind_of_ok (hk w hd)).trans ?_⟩
      refine (bind_of_ok (bindDimension_ok hp (.inr hd))).trans ?_
      simp [←hd]
    case neg =>
      refine .inr ⟨fun k' h => by cases h; omega, ?_⟩
      obtain ⟨e, he⟩ := bindDimension_error (n := k) (d := some k) (F := F) fun h => hp h.left
      exact ⟨e, fun w hd => (bind_of_ok (hk w hd)).trans (bind_of_error (he w hd))⟩

private theorem probe_of_faultFree :
    (∃ e k, ∀ w : World F, w.FaultFree → w.dimension = d →
      probeOrBindDimension embedder w = .error e (w.probed d k)) ∨
    ∃ n k, Reaches embedder .probe d n ∧ ∀ w : World F, w.FaultFree → w.dimension = d →
      probeOrBindDimension embedder w = .ok n (w.probed (some n) k) := by
  obtain ⟨n, hp, hd, hb⟩ | ⟨hz, e, hb⟩ := boundDimension_eq (d := d) (F := F)
  case inl =>
    refine .inr ⟨n, 0, ⟨nofun, hp, .inr hd, nofun, fun _ hn => ?_⟩, fun w hf hw => ?_⟩
    · simp [hd] at hn
    · refine (tryCatch_of_ok (hb w hw)).trans ?_
      simp [World.probed, ←hd, ←hw]
  cases he : embedder.aembed d [EMBEDDING_PROBE_TEXT]
  case error e' =>
    refine .inl ⟨e', 1, fun w hf hw => (tryCatch_of_error (hb w hw)).trans (bind_of_error ?_)⟩
    rw [aembed_of_faultFree hf, hw, he, World.probed, ←hw]
    rfl
  case ok rows =>
    have ha : ∀ w : World F, w.FaultFree → w.dimension = d →
        aembed embedder [EMBEDDING_PROBE_TEXT] w = .ok rows (w.probed d 1) := by
      intro w hf hw
      rw [aembed_of_faultFree hf, hw, he, World.probed, ←hw]
      rfl
    match rows with
    | [] | [] :: _ =>
      exact .inl ⟨_, 1, fun w hf hw => (tryCatch_of_error (hb w hw)).trans (bind_of_ok (ha w hf hw))⟩
    | (x :: row) :: rows =>
      have hp : 0 < (x :: row).length := by simp
      by_cases hd : d = none ∨ d = some (x :: row).length
      case pos =>
        have hn : d = none := hd.resolve_right fun hs => by
          have := hz _ hs
          simp at this
        refine .inr ⟨_, 1, ⟨nofun, hp, hd, nofun, fun _ _ => ⟨_, _, hn ▸ he, rfl⟩⟩, fun w hf hw => ?_⟩
        refine (tryCatch_of_error (hb w hw)).trans ((bind_of_ok (ha w hf hw)).trans ?_)
        exact (bind_of_ok (bindDimension_ok hp hd)).trans rfl
      case neg =>
        obtain ⟨e', he'⟩ := bindDimension_error (d := d) (F := F) (fun h => hd h.right)
        refine .inl ⟨e', 1, fun w hf hw => ?_⟩
        refine (tryCatch_of_error (hb w hw)).trans ((bind_of_ok (ha w hf hw)).trans ?_)
        exact bind_of_error (he' _ rfl)

private theorem target_eq (embedder : Embedder F) : (∃ e, ∀ w : World F, w.dimension = d → bindEmbedderToTarget n w = .error e w) ∨
    Reaches embedder (.target n) d n ∧ ∀ w : World F, w.dimension = d →
      bindEmbedderToTarget n w = .ok n { w with dimension := some n } := by
  unfold bindEmbedderToTarget
  by_cases hd : d.isSome ∧ d ≠ some n
  case pos => exact .inl ⟨dimensionMismatch n (d.getD 0), fun w hw => by simp [hw, hd]⟩
  have hd' : d = none ∨ d = some n := by
    cases d
    case none   => exact .inl rfl
    case some m => exact .inr (by simpa using hd)
  by_cases hn : 0 < n
  case pos =>
    refine .inr ⟨⟨nofun, hn, hd', fun t ht => by cases ht; rfl, nofun⟩, fun w hw => ?_⟩
    rw [get_bind]
    simp only [hw, hd, if_false]
    exact bind_of_ok (bindDimension_ok hn (hw ▸ hd'))
  case neg =>
    obtain ⟨e, he⟩ := bindDimension_error (d := d) (F := F) fun h => hn h.left
    refine .inl ⟨e, fun w hw => ?_⟩
    rw [get_bind]
    simp only [hw, hd, if_false]
    exact bind_of_error (he w hw)

-- Without faults, what a plan leads to only depends on the width the embedder is bound to.
theorem runPlan_of_faultFree (embedder : Embedder F) (plan : BindPlan) :
    (∃ e k, ∀ w : World F, w.FaultFree → w.dimension = d →
      runPlan embedder plan w = .error e (w.probed d k)) ∨
    ∃ n k, Reaches embedder plan d n ∧ ∀ w : World F, w.FaultFree → w.dimension = d →
      runPlan embedder plan w = .ok n (w.probed (some n) k) := by
  have hz : ∀ w : World F, w.dimension = d → w.probed d 0 = w := by
    rintro w rfl
    simp [World.probed]
  cases plan
  case fails e => exact .inl ⟨e, 0, fun w _ hw => by rw [hz w hw]; rfl⟩
  case probe   => exact probe_of_faultFree
  case target n =>
    obtain ⟨e, he⟩ | ⟨hr, he⟩ := target_eq embedder (n := n) (d := d)
    · exact .inl ⟨e, 0, fun w _ hw => by rw [hz w hw]; exact he w hw⟩
    · exact .inr ⟨n, 0, hr, fun w _ hw => by simp [World.probed, runPlan, he w hw]⟩

theorem tableWidth_of_faultFree (h : w.FaultFree) : tableWidth w = .ok w.db.width? w := by
  unfold tableWidth
  rw [bind_of_ok (embeddingsTableExists_of_faultFree h)]
  cases he : w.db.embeddings.isSome
  case true  => exact schemaVecWidth_of_faultFree h he
  case false =>
    have hn : w.db.embeddings = none := by simpa using he
    simp [Db.width?, hn]

theorem createTableAndSyncMeta_of_ready (embedder : Embedder F) (h : w.Ready) (hn : 0 < n) :
    createTableAndSyncMeta embedder n w =
      if ht : w.db.Admits n then
        .ok () { w with db := w.db.finishBind embedder.modelId n ht.size }
      else
        .error (w.db.refusal n) w := by
  unfold createTableAndSyncMeta
  rw [bind_of_ok (tableWidth_of_faultFree h.faultFree), bind_of_ok (metaGet_of_faultFree h.faultFree)]
  by_cases hwidth : w.db.width?.isSome ∧ w.db.width? ≠ some n
  case pos =>
    rw [if_pos hwidth, dif_neg fun ht => hwidth.right (ht.width hwidth.left), Db.refusal, if_pos hwidth]
    rfl
  rw [if_neg hwidth, get_bind, if_neg (by simp [h.mode])]
  by_cases hs : ArraySize n
  case neg =>
    have hc : createEmbeddings n w = .error arrayTooLarge w := by
      unfold createEmbeddings
      rw [if_pos hn, execute_of_faultFree h.faultFree h.mode, dif_neg hs]
    rw [dif_neg fun ht => hs ht.size, Db.refusal, if_neg hwidth, bind_of_error hc]
  case pos =>
    rw [dif_pos ⟨hs, fun hw => by_contra fun hne => hwidth ⟨hw, hne⟩⟩]
    -- The table, then the width, then the model.
    have hc : createEmbeddings n w = .ok () { w with
        db := { w.db with embeddings := some (w.db.embeddings.getD (.create n hs)) } } := by
      unfold createEmbeddings
      rw [if_pos hn, execute_of_faultFree h.faultFree h.mode, dif_pos hs]
      cases he : w.db.embeddings
      case none   => rfl
      case some e =>
        simp only [Option.getD_some]
        rw [←he]
    have h₁ : ({ w with db := { w.db with
        embeddings := some (w.db.embeddings.getD (.create n hs)) } } : World F).Ready :=
      h.of_db h.indexMeta
    rw [bind_of_ok hc, bind_of_ok (metaSet_of_ready h₁)]
    unfold Db.finishBind
    by_cases hm : w.db.meta? META_MODEL_KEY = none
    case pos => simp only [hm, if_true]; exact metaSet_of_ready (Ready.setMeta h₁)
    case neg => simp only [hm, if_false]; rfl

-- A session that only reads creates no table.
theorem createTableAndSyncMeta_of_readOnly (embedder : Embedder F) (hf : w.FaultFree)
    (hm : w.mode = .readOnly) : createTableAndSyncMeta embedder n w =
      if w.db.width?.isSome ∧ w.db.width? ≠ some n then
        .error (dimensionMismatch (w.db.width?.getD 0) n) w
      else
        .ok () w := by
  unfold createTableAndSyncMeta
  rw [bind_of_ok (tableWidth_of_faultFree hf), bind_of_ok (metaGet_of_faultFree hf)]
  split
  case isTrue  => rfl
  case isFalse =>
    rw [get_bind, if_pos hm]
    rfl

-- The plan by which a session finds the width of its embedder.
def sessionPlan (embedder : Embedder F) (w : World F) : BindPlan :=
  w.db.bindPlan embedder.modelId w.pendingWipe

-- The tables once the missing keys are filled in.
def inferredWorld (w : World F) : World F :=
  { w with db := w.db.inferMeta w.pendingWipe }

-- The state in which a session of either mode looks for the width of its embedder.
def startWorld (w : World F) : World F :=
  { w with db := planDb w.db w.pendingWipe (w.mode = .readOnly) }

theorem startWorld_of_readWrite (h : w.mode = .readWrite) : startWorld w = inferredWorld w := by
  simp [startWorld, planDb, inferredWorld, h]

theorem ensure_eq_of_faultFree (hf : w.FaultFree) (hr : w.mode = .readWrite → w.Ready)
    (ht : w.mode = .readOnly → w.db.embeddings.isSome) (hb : w.bound = false) :
    ensureEmbeddingsBound embedder w =
      (runPlan embedder (sessionPlan embedder w) >>= fun dim =>
        createTableAndSyncMeta embedder dim >>= fun _ =>
          modify fun w => { w with bound := true, pendingWipe := false }) (startWorld w) := by
  have hq : requireTable w = .ok () w := by
    unfold requireTable
    rw [get_bind]
    split
    case isTrue => rfl
    case isFalse hm =>
      have ht : w.db.embeddings.isSome := ht (by cases h : w.mode <;> simp_all)
      rw [bind_of_ok (embeddingsTableExists_of_faultFree hf), if_pos ht]
      rfl
  unfold ensureEmbeddingsBound bindEmbeddings
  rw [get_bind, if_neg (by simp [hb]), bind_assoc, bind_of_ok hq, bind_assoc, get_bind, bind_assoc]
  have hd : bindEmbedderDimension embedder w.pendingWipe (w.mode = .readOnly) w =
      runPlan embedder (sessionPlan embedder w) (startWorld w) :=
    bindEmbedderDimension_eq hf fun hm => hr (by cases h : w.mode <;> simp_all)
  obtain ⟨n, w', hr⟩ | ⟨e, w', hr⟩ : (∃ n w', runPlan embedder (sessionPlan embedder w)
      (startWorld w) = .ok n w') ∨ ∃ e w', runPlan embedder (sessionPlan embedder w)
      (startWorld w) = .error e w' := by
    cases runPlan embedder (sessionPlan embedder w) (startWorld w)
    case ok n w'    => exact .inl ⟨n, w', rfl⟩
    case error e w' => exact .inr ⟨e, w', rfl⟩
  case inl => rw [bind_of_ok (hd.trans hr), bind_of_ok hr]
  case inr => rw [bind_of_error (hd.trans hr), bind_of_error hr]

private theorem ensure_eq (h : w.Ready) (hb : w.bound = false) : ensureEmbeddingsBound embedder w =
    (runPlan embedder (sessionPlan embedder w) >>= fun dim =>
      createTableAndSyncMeta embedder dim >>= fun _ =>
        modify fun w => { w with bound := true, pendingWipe := false }) (inferredWorld w) := by
  rw [←startWorld_of_readWrite h.mode]
  exact ensure_eq_of_faultFree h.faultFree (fun _ => h) (fun hm => by simp [h.mode] at hm) hb

theorem finish_eq {d : Option Nat} {k : Nat} (h : w.Ready) (hn : 0 < n) :
    (createTableAndSyncMeta embedder n >>= fun _ =>
      modify fun w => { w with bound := true, pendingWipe := false }) ((inferredWorld w).probed d k) =
    if ht : w.db.Admits n then
      .ok () { w.probed d k with
        db          := (inferredWorld w).db.finishBind embedder.modelId n ht.size
        bound       := true
        pendingWipe := false }
    else
      .error (w.db.refusal n) ((inferredWorld w).probed d k) := by
  have hready : ((inferredWorld w).probed d k).Ready :=
    ⟨h.faultFree, h.mode, by simpa [inferredWorld] using h.indexMeta⟩
  have hc := createTableAndSyncMeta_of_ready embedder hready hn
  have hw : ((inferredWorld w).probed d k).db.width? = w.db.width? := Db.inferMeta_width?
  by_cases ht : w.db.Admits n
  case pos =>
    rw [dif_pos ((Db.admits_congr hw).mpr ht)] at hc
    rw [dif_pos ht]
    exact bind_of_ok hc
  case neg =>
    rw [dif_neg (mt (Db.admits_congr hw).mp ht), Db.refusal_congr hw] at hc
    rw [dif_neg ht]
    exact bind_of_error hc

-- What binding an embedder does: it fails, there is no table for its width, or it succeeds.
theorem ensureEmbeddingsBound_of_ready (embedder : Embedder F) (hb : w.bound = false) :
    (∃ e k, ∀ w' : World F, w'.Ready → SamePlan embedder w w' →
      ensureEmbeddingsBound embedder w' = .error e ((inferredWorld w').probed w.dimension k)) ∨
    ∃ n k, Reaches embedder (sessionPlan embedder w) w.dimension n ∧
      ∀ w' : World F, w'.Ready → SamePlan embedder w w' → ensureEmbeddingsBound embedder w' =
        if ht : w.db.Admits n then
          .ok () { w'.probed (some n) k with
            db          := (inferredWorld w').db.finishBind embedder.modelId n ht.size
            bound       := true
            pendingWipe := false }
        else
          .error (w.db.refusal n) ((inferredWorld w').probed (some n) k) := by
  obtain ⟨e, k, he⟩ | ⟨n, k, hr, ho⟩ :=
    runPlan_of_faultFree embedder (sessionPlan embedder w) (d := w.dimension)
  case inl =>
    refine .inl ⟨e, k, fun w' h hs => ?_⟩
    refine (ensure_eq h (hs.bound ▸ hb)).trans ?_
    rw [show sessionPlan embedder w' = sessionPlan embedder w from hs.plan]
    exact bind_of_error (he _ h.faultFree hs.dimension)
  case inr =>
    refine .inr ⟨n, k, hr, fun w' h hs => ?_⟩
    refine (ensure_eq h (hs.bound ▸ hb)).trans ?_
    rw [show sessionPlan embedder w' = sessionPlan embedder w from hs.plan]
    refine (bind_of_ok (ho (inferredWorld w') h.faultFree hs.dimension)).trans ((finish_eq h hr.pos).trans ?_)
    simp only [Db.admits_congr hs.width, Db.refusal_congr hs.width]

-- A width that a plan can lead to is the one it finds, and finds again.
theorem runPlan_of_reaches {plan : BindPlan} (hr : Reaches embedder plan d n) (hf : w.FaultFree)
    (hd : w.dimension = d ∨ w.dimension = some n) :
    ∃ k, runPlan embedder plan w = .ok n (w.probed (some n) k) := by
  have hd' : w.dimension = none ∨ w.dimension = some n := by
    obtain h | h := hd
    case inl => exact hr.dimension.imp h.trans h.trans
    case inr => exact .inr h
  have hb : bindDimension n w = .ok () (w.probed (some n) 0) := by
    rw [bindDimension_ok hr.pos hd']
    simp [World.probed]
  cases plan
  case fails e => exact absurd rfl (hr.sound e)
  case target t =>
    obtain rfl := hr.target t rfl
    refine ⟨0, ?_⟩
    show bindEmbedderToTarget n w = _
    unfold bindEmbedderToTarget
    rw [get_bind, if_neg (by rintro ⟨hs, hn⟩; obtain h | h := hd' <;> simp [h] at hs hn)]
    exact bind_of_ok hb
  case probe =>
    obtain hn | hn := hd'
    case inr =>
      refine ⟨0, tryCatch_of_ok ?_⟩
      refine (bind_of_ok (show dimension w = .ok n w by simp [dimension, hn])).trans ?_
      exact bind_of_ok hb
    case inl =>
      have hd : d = none := by
        obtain h | h := hd
        case inl => exact h ▸ hn
        case inr => simp [hn] at h
      obtain ⟨v, vs, he, rfl⟩ := hr.probe rfl hd
      obtain ⟨x, xs, rfl⟩ := List.exists_cons_of_length_pos hr.pos
      refine ⟨1, (tryCatch_of_error (bind_of_error
        (show dimension w = .error (.intelligence "Embedding dimension is not bound") w by
          simp [dimension, hn]))).trans ?_⟩
      have ha : aembed embedder [EMBEDDING_PROBE_TEXT] w = .ok ((x :: xs) :: vs)
          { w with calls := w.calls ++ [.aembed [EMBEDDING_PROBE_TEXT]] } := by
        rw [aembed_of_faultFree hf, hn, he]
      have hb' := bindDimension_ok (n := (x :: xs).length)
        (w := { w with calls := w.calls ++ [.aembed [EMBEDDING_PROBE_TEXT]] }) hr.pos (.inl hn)
      exact (bind_of_ok ha).trans ((bind_of_ok hb').trans rfl)

theorem ensureEmbeddingsBound_of_reaches (h : w.Ready) (hb : w.bound = false)
    (hr : Reaches embedder (sessionPlan embedder w) d n)
    (hd : w.dimension = d ∨ w.dimension = some n) :
    ∃ k, ensureEmbeddingsBound embedder w =
      if ht : w.db.Admits n then
        .ok () { w.probed (some n) k with
          db          := (inferredWorld w).db.finishBind embedder.modelId n ht.size
          bound       := true
          pendingWipe := false }
      else
        .error (w.db.refusal n) ((inferredWorld w).probed (some n) k) := by
  obtain ⟨k, hk⟩ := runPlan_of_reaches (w := inferredWorld w) hr h.faultFree hd
  exact ⟨k, (ensure_eq h hb).trans ((bind_of_ok hk).trans (finish_eq h hr.pos))⟩

-- The embedder is bound to the index, or it can be.
def Bindable (embedder : Embedder F) (w : World F) : Prop :=
  w.bound ∨ ∃ n, Reaches embedder (sessionPlan embedder w) w.dimension n ∧ w.db.Admits n

theorem ensure_of_bound (hb : w.bound) : ensureEmbeddingsBound embedder w = .ok () w := by
  unfold ensureEmbeddingsBound
  rw [get_bind, if_pos hb]
  rfl

theorem ensure_ok_iff (h : w.Ready) :
    (ensureEmbeddingsBound embedder w).outcome = .ok () ↔ Bindable embedder w := by
  by_cases hb : w.bound
  case pos => simp [ensure_of_bound hb, Bindable, hb]
  have hb : w.bound = false := by simpa using hb
  constructor
  case mpr =>
    rintro (h' | ⟨n, hr, ht⟩)
    case inl => simp [hb] at h'
    obtain ⟨k, he⟩ := ensureEmbeddingsBound_of_reaches h hb hr (.inl rfl)
    rw [he, dif_pos ht]
    rfl
  case mp =>
    intro ho
    obtain ⟨e, k, he⟩ | ⟨n, k, hr, he⟩ := ensureEmbeddingsBound_of_ready embedder hb
    case inl => rw [he w h .refl] at ho; cases ho
    case inr =>
      refine .inr ⟨n, hr, by_contra fun ht => ?_⟩
      rw [he w h .refl, dif_neg ht] at ho
      cases ho

end Conn
