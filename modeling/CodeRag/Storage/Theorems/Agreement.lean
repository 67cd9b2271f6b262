import CodeRag.Storage.Theorems.Open
import CodeRag.Storage.Theorems.Ready

-- What binding an embedder to an opened index establishes when no statement fails.

-- The errors that tell that an index does not fit the embedder.
def Exn.Disagrees : Exn → Prop
  | storage _ (some .embeddingMismatch) | storage _ (some .storageCorrupt) => True
  | _                                                                     => False

namespace Db

variable {F : Floats} {db : Db F} {model : String} {wiped : Bool} {n t : Nat}

-- The index records that its vectors are of the model. Without a complete record they are taken to be
-- of the local model.
def Trusts (db : Db F) (model : String) : Prop :=
  if db.lacksMeta then model = LOCAL_EMBEDDING_MODEL_ID else db.meta? META_MODEL_KEY = some model

-- The recorded width is not a number of more digits than can be read.
def Readable (db : Db F) : Prop :=
  ∀ raw n, db.meta? META_DIM_KEY = some raw → parseDigits raw.strip = some n →
    raw.strip.length ≤ MAX_STR_DIGITS

theorem disagrees_of_parse {raw : String} {e : Exn} (h : db.Readable)
    (hd : db.meta? META_DIM_KEY = some raw) (he : Conn.parsePositiveDim raw = .error e) :
    e.Disagrees := by
  unfold Conn.parsePositiveDim at he
  split at he
  case h_1      => cases he; trivial
  case h_2 n hn =>
    rw [if_neg (Nat.not_lt.mpr (h raw n hd hn))] at he
    split at he <;> cases he
    trivial

-- A plan that fails tells that the index does not fit.
theorem disagrees_of_fails {e : Exn} (h : db.Readable) (hp : db.bindPlan model wiped = .fails e) :
    e.Disagrees := by
  unfold bindPlan at hp
  split at hp
  case isTrue => cases hp
  split at hp
  case h_2 => split at hp <;> cases hp
  case h_1 raw m hd _ =>
    split at hp
    case h_1 e' he =>
      cases hp
      exact disagrees_of_parse h hd he
    case h_2 =>
      split at hp
      case isTrue  => cases hp; trivial
      case isFalse => split at hp <;> cases hp

theorem trusts_of_target (h : db.bindPlan model wiped = .target t) :
    db.Trusts model ∧ ∀ n, db.width? = some n → t = n := by
  unfold bindPlan at h
  split at h
  case isTrue => cases h
  case isFalse =>
    split at h
    case h_1 raw m hd hm =>
      split at h
      case h_1 => cases h
      case h_2 n hn =>
        split at h
        case isTrue => cases h
        case isFalse hw =>
          split at h
          case isFalse => cases h
          case isTrue he =>
            cases h
            refine ⟨by simp [Trusts, lacksMeta, hd, hm, he], fun n' hn' => ?_⟩
            simp [hn']
    case h_2 hne =>
      split at h
      case isFalse => cases h
      case isTrue he =>
        cases h
        have hl : db.lacksMeta = true := by
          unfold lacksMeta
          cases hd : db.meta? META_DIM_KEY
          case none   => rfl
          case some d =>
            cases hm : db.meta? META_MODEL_KEY
            case none   => rfl
            case some m => exact (hne d m hd hm).elim
        refine ⟨by simp [Trusts, hl, he], fun n hn => ?_⟩
        simp [inferredWidth, hn]

theorem target_of_trusts (ht : db.Trusts model) (hw : db.width? = some n) :
    (∃ e, db.bindPlan model false = .fails e) ∨ db.bindPlan model false = .target n := by
  have he : db.embeddings.isNone = false := by
    cases he : db.embeddings
    case none   => simp [width?, he] at hw
    case some e => rfl
  unfold bindPlan
  rw [if_neg (by simp [he])]
  cases hd : db.meta? META_DIM_KEY <;> cases hm : db.meta? META_MODEL_KEY
  case some.some raw m =>
    have hm' : m = model := by simpa [Trusts, lacksMeta, hd, hm] using ht
    subst hm'
    dsimp only
    cases Conn.parsePositiveDim raw
    case error e => exact .inl ⟨e, rfl⟩
    case ok n'   =>
      by_cases hc : db.width?.isSome ∧ db.width? ≠ some n'
      case pos => exact .inl ⟨Conn.corruptMetadata, by simp only [if_pos hc]⟩
      case neg =>
        refine .inr ?_
        dsimp only
        rw [if_neg hc, if_pos rfl, hw]
        rfl
  all_goals
    have hl : model = LOCAL_EMBEDDING_MODEL_ID := by simpa [Trusts, lacksMeta, hd, hm] using ht
    exact .inr (by simp [hl, inferredWidth, hw])

end Db

namespace Conn

open EStateM World

variable {F : Floats} {w w' : World F} {embedder : Embedder F} {m n : Nat}

-- An index that has been opened, on which no statement fails.
structure Opened (w : World F) : Prop where
  faultFree : w.FaultFree
  bound     : w.bound = false
  indexMeta : w.mode = .readWrite → w.db.indexMeta.isSome
  wiped     : w.pendingWipe → w.db.embeddings = none
  dimension : ∀ m, w.dimension = some m → 0 < m

-- The width that a session knows its embedder to have, or learns from a probe of it.
def Learns (embedder : Embedder F) (w : World F) (m : Nat) : Prop :=
  w.dimension = some m ∨ w.dimension = none ∧ ¬w.db.Trusts embedder.modelId ∧ 0 < m ∧
    ∃ v vs, embedder.aembed none [EMBEDDING_PROBE_TEXT] = .ok (v :: vs) ∧ v.length = m

-- Binding the embedder establishes that it agrees with the index, or it fails and leaves the table.
structure Agrees (embedder : Embedder F) (w : World F) : Prop where
  ok : ∀ w', ensureEmbeddingsBound embedder w = .ok () w' → ∃ d, w'.dimension = some d ∧
    (∀ n, w'.db.width? = some n → d = n) ∧ (w.mode = .readWrite → w'.db.embeddings.isSome ∧
      w'.db.meta? META_DIM_KEY = some (toString d) ∧ (w'.db.meta? META_MODEL_KEY).isSome)
  differs : w.db.Readable → ∀ n m, w.db.width? = some n → Learns embedder w m → m ≠ n →
    ∃ e w', ensureEmbeddingsBound embedder w = .error e w' ∧ e.Disagrees
  trusts : w.db.Readable → ∀ n, w.db.width? = some n → w.dimension = none →
    w.db.Trusts embedder.modelId → (∃ e w', ensureEmbeddingsBound embedder w = .error e w' ∧ e.Disagrees) ∨
    ∃ w', ensureEmbeddingsBound embedder w = .ok () w' ∧ w'.dimension = some n ∧ w'.calls = w.calls
  error : ∀ e w', ensureEmbeddingsBound embedder w = .error e w' →
    w'.db.embeddings = w.db.embeddings ∧ w'.bound = false
  readOnly : w.mode = .readOnly → (ensureEmbeddingsBound embedder w).state.db = w.db ∧
    (w.db.embeddings = none → ensureEmbeddingsBound embedder w =
      .error (.storage EMBEDDINGS_MISSING_MSG (some .embeddingsMissing)) w)

theorem Opened.ready (h : Opened w) (hm : w.mode = .readWrite) : w.Ready :=
  ⟨h.faultFree, hm, h.indexMeta hm⟩

@[simp]
theorem startWorld_embeddings : (startWorld w).db.embeddings = w.db.embeddings := by
  unfold startWorld planDb
  split <;> simp

@[simp]
theorem startWorld_width? : (startWorld w).db.width? = w.db.width? := by
  simp [Db.width?]

@[simp] theorem startWorld_mode : (startWorld w).mode = w.mode := rfl
@[simp] theorem startWorld_bound : (startWorld w).bound = w.bound := rfl
@[simp] theorem startWorld_calls : (startWorld w).calls = w.calls := rfl
@[simp] theorem startWorld_dimension : (startWorld w).dimension = w.dimension := rfl

theorem startWorld_of_readOnly (h : w.mode = .readOnly) : startWorld w = w := by
  rw [startWorld, planDb, if_pos (by simpa using h)]

theorem ensure_of_missing (h : Opened w) (hm : w.mode = .readOnly) (he : w.db.embeddings = none) :
    ensureEmbeddingsBound embedder w =
      .error (.storage EMBEDDINGS_MISSING_MSG (some .embeddingsMissing)) w := by
  have hq : requireTable w = .error (.storage EMBEDDINGS_MISSING_MSG (some .embeddingsMissing)) w := by
    unfold requireTable
    rw [get_bind, if_neg (by simp [hm]),
      bind_of_ok (embeddingsTableExists_of_faultFree h.faultFree), if_neg (by simp [he])]
    rfl
  unfold ensureEmbeddingsBound bindEmbeddings
  rw [get_bind, if_neg (by simp [h.bound]), bind_assoc, bind_of_error hq]

-- The session has a table of vectors of width `n`, or it can create one if it is to.
structure Admits (w : World F) (n : Nat) : Prop where
  size  : w.mode = .readWrite → ArraySize n
  width : w.db.width?.isSome → w.db.width? = some n

instance : Decidable (Admits w n) :=
  decidable_of_iff ((w.mode = .readWrite → ArraySize n) ∧ (w.db.width?.isSome → w.db.width? = some n))
    ⟨fun h => ⟨h.left, h.right⟩, fun h => ⟨h.size, h.width⟩⟩

-- The tables of a session whose embedder is bound.
def boundDb (embedder : Embedder F) (w : World F) (n : Nat) (h : Admits w n) : Db F :=
  if hm : w.mode = .readWrite then
    (startWorld w).db.finishBind embedder.modelId n (h.size hm)
  else
    w.db

-- The width that is found decides how binding ends.
theorem ensure_of_runPlan {k : Nat} (h : Opened w)
    (ht : w.mode = .readOnly → w.db.embeddings.isSome) (hn : 0 < n)
    (hp : runPlan embedder (sessionPlan embedder w) (startWorld w) =
      .ok n ((startWorld w).probed (some n) k)) :
    ensureEmbeddingsBound embedder w =
      if ht : Admits w n then
        .ok () { w.probed (some n) k with
          db          := boundDb embedder w n ht
          bound       := true
          pendingWipe := false }
      else
        .error (w.db.refusal n) ((startWorld w).probed (some n) k) := by
  rw [ensure_eq_of_faultFree h.faultFree h.ready ht h.bound, bind_of_ok hp]
  cases hm : w.mode
  case readWrite =>
    rw [startWorld_of_readWrite hm, finish_eq (h.ready hm) hn]
    by_cases ht : w.db.Admits n
    case pos =>
      have ht' : Admits w n := ⟨fun _ => ht.size, ht.width⟩
      have hb : boundDb embedder w n ht' = (startWorld w).db.finishBind embedder.modelId n ht.size :=
        dif_pos hm
      rw [dif_pos ht, dif_pos ht', hb, startWorld_of_readWrite hm]
    case neg => rw [dif_neg ht, dif_neg fun hc => ht ⟨hc.size hm, hc.width⟩]
  case readOnly =>
    rw [startWorld_of_readOnly hm]
    have hc : createTableAndSyncMeta embedder n (w.probed (some n) k) = _ :=
      createTableAndSyncMeta_of_readOnly embedder h.faultFree hm
    rw [probed_db] at hc
    split at hc
    case isTrue hw =>
      rw [dif_neg fun hc => hw.right (hc.width hw.left), Db.refusal, if_pos hw]
      exact bind_of_error hc
    case isFalse hw =>
      have ht : Admits w n :=
        ⟨fun hr => by simp [hm] at hr, fun hs => by_contra fun hne => hw ⟨hs, hne⟩⟩
      have hb : boundDb embedder w n ht = w.db := dif_neg (by simp [hm])
      rw [dif_pos ht, hb]
      exact bind_of_ok hc

-- An embedder whose width is known or learned from a probe.
theorem runPlan_of_learns (h : Opened w) (hr : w.db.Readable) (hl : Learns embedder w m) :
    (∃ e, runPlan embedder (sessionPlan embedder w) (startWorld w) = .error e (startWorld w) ∧
      e.Disagrees) ∨
    0 < m ∧ ∃ k, runPlan embedder (sessionPlan embedder w) (startWorld w) =
      .ok m ((startWorld w).probed (some m) k) := by
  have hpos : 0 < m := by
    obtain hd | ⟨_, _, hm, _⟩ := hl
    case inl => exact h.dimension m hd
    case inr => exact hm
  have hf : (startWorld w).FaultFree := h.faultFree
  cases hp : sessionPlan embedder w
  case fails e => exact .inl ⟨e, rfl, Db.disagrees_of_fails hr hp⟩
  case target t =>
    obtain hd | ⟨_, ht, _⟩ := hl
    case inr => exact (ht (Db.trusts_of_target hp).left).elim
    by_cases ht : m = t
    case pos =>
      subst ht
      have hr : Reaches embedder (.target m) (some m) m :=
        ⟨nofun, hpos, .inr rfl, fun t ht => by cases ht; rfl, nofun⟩
      exact .inr ⟨hpos, runPlan_of_reaches hr hf (.inr hd)⟩
    case neg =>
      refine .inl ⟨dimensionMismatch t m, ?_, trivial⟩
      show bindEmbedderToTarget t (startWorld w) = _
      unfold bindEmbedderToTarget
      rw [get_bind]
      simp [hd, ht]
  case probe =>
    obtain hd | ⟨hd, _, _, v, vs, he, hv⟩ := hl
    case inl =>
      have hr : Reaches embedder .probe (some m) m := ⟨nofun, hpos, .inr rfl, nofun, nofun⟩
      exact .inr ⟨hpos, runPlan_of_reaches hr hf (.inr hd)⟩
    case inr =>
      have hr : Reaches embedder .probe none m :=
        ⟨nofun, hpos, .inl rfl, nofun, fun _ _ => ⟨v, vs, he, hv⟩⟩
      exact .inr ⟨hpos, runPlan_of_reaches hr hf (.inl hd)⟩

theorem ensure_of_runPlan_error {e : Exn} (h : Opened w)
    (ht : w.mode = .readOnly → w.db.embeddings.isSome)
    (hp : runPlan embedder (sessionPlan embedder w) (startWorld w) = .error e w') :
    ensureEmbeddingsBound embedder w = .error e w' := by
  rw [ensure_eq_of_faultFree h.faultFree h.ready ht h.bound, bind_of_error hp]

theorem isSome_of_width? (h : w.db.width? = some n) : w.db.embeddings.isSome := by
  have ⟨e, he, _⟩ := Option.bind_eq_some_iff.mp h
  simp [he]

theorem boundDb_isSome {h : Admits w n} (ht : w.mode = .readOnly → w.db.embeddings.isSome) :
    (boundDb embedder w n h).embeddings.isSome := by
  unfold boundDb
  split
  case isTrue     => simp
  case isFalse hm => exact ht (by cases hw : w.mode <;> simp_all)

theorem boundDb_width? {h : Admits w n} (hw : (boundDb embedder w n h).width? = some m) : n = m := by
  have hold : w.db.width? = some m → n = m := fun hw => by simpa [hw, eq_comm] using h.width
  unfold boundDb at hw
  split at hw
  case isFalse   => exact hold hw
  case isTrue hm =>
    cases he : w.db.embeddings
    case none   => simpa [Db.width?, Embeddings.create, he] using hw
    case some e => exact hold (by simpa [Db.width?, he] using hw)

theorem disagrees (h : Opened w) (hr : w.db.Readable) (hw : w.db.width? = some n)
    (hl : Learns embedder w m) (hm : m ≠ n) :
    ∃ e w', ensureEmbeddingsBound embedder w = .error e w' ∧ e.Disagrees := by
  have ht : w.mode = .readOnly → w.db.embeddings.isSome := fun _ => isSome_of_width? hw
  obtain ⟨e, hp, hd⟩ | ⟨hpos, k, hp⟩ := runPlan_of_learns h hr hl
  case inl => exact ⟨e, _, ensure_of_runPlan_error h ht hp, hd⟩
  case inr =>
    have hne : w.db.width?.isSome ∧ w.db.width? ≠ some m := by simpa [hw] using Ne.symm hm
    refine ⟨w.db.refusal m, _, (ensure_of_runPlan h ht hpos hp).trans (dif_neg ?_), ?_⟩
    · exact fun ht => hne.right (ht.width hne.left)
    · rw [Db.refusal, if_pos hne]
      trivial

theorem trusts (h : Opened w) (hr : w.db.Readable) (hw : w.db.width? = some n)
    (hd : w.dimension = none) (ht : w.db.Trusts embedder.modelId) :
    (∃ e w', ensureEmbeddingsBound embedder w = .error e w' ∧ e.Disagrees) ∨
    ∃ w', ensureEmbeddingsBound embedder w = .ok () w' ∧ w'.dimension = some n ∧
      w'.calls = w.calls := by
  have hro : w.mode = .readOnly → w.db.embeddings.isSome := fun _ => isSome_of_width? hw
  have hwipe : w.pendingWipe = false := by
    by_contra hp
    simp [Db.width?, h.wiped (by simpa using hp)] at hw
  have hplan : sessionPlan embedder w = w.db.bindPlan embedder.modelId false := by
    rw [sessionPlan, hwipe]
  obtain ⟨e, hp⟩ | hp := Db.target_of_trusts ht hw
  case inl =>
    have he : runPlan embedder (sessionPlan embedder w) (startWorld w) = .error e (startWorld w) := by
      rw [hplan, hp]
      rfl
    exact .inl ⟨_, _, ensure_of_runPlan_error h hro he, Db.disagrees_of_fails hr hp⟩
  case inr =>
    have hs : ArraySize n := Db.width_size hw
    have hr : runPlan embedder (sessionPlan embedder w) (startWorld w) =
        .ok n ((startWorld w).probed (some n) 0) := by
      rw [hplan, hp]
      show bindEmbedderToTarget n (startWorld w) = _
      unfold bindEmbedderToTarget
      rw [get_bind, if_neg (by simp [hd])]
      have hb := bindDimension_ok (w := startWorld w) hs.pos (.inl hd)
      refine (bind_of_ok hb).trans ?_
      simp [World.probed]
    refine .inr ⟨_, (ensure_of_runPlan h hro hs.pos hr).trans (dif_pos ⟨fun _ => hs, fun _ => hw⟩), rfl, ?_⟩
    simp [World.probed]

theorem agrees (h : Opened w) : Agrees embedder w := by
  by_cases hmiss : w.mode = .readOnly ∧ w.db.embeddings = none
  case pos =>
    have he : ensureEmbeddingsBound embedder w = _ := ensure_of_missing h hmiss.left hmiss.right
    have hw : w.db.width? = none := by simp [Db.width?, hmiss.right]
    refine ⟨fun w' hw' => ?_, fun _ n m hn => ?_, fun _ n hn => ?_, fun e w' hw' => ?_, fun _ => ?_⟩
    · cases he.symm.trans hw'
    · cases hw.symm.trans hn
    · cases hw.symm.trans hn
    · cases he.symm.trans hw'
      exact ⟨rfl, h.bound⟩
    · exact ⟨by rw [he]; rfl, fun _ => he⟩
  case neg =>
    have ht : w.mode = .readOnly → w.db.embeddings.isSome := fun hm => by
      cases he : w.db.embeddings
      case none   => exact (hmiss ⟨hm, he⟩).elim
      case some e => rfl
    have hdb : ∀ d k, ((startWorld w).probed d k).db.embeddings = w.db.embeddings := by simp
    have hfails : ∀ {e d k}, ensureEmbeddingsBound embedder w = .error e ((startWorld w).probed d k) →
        Agrees embedder w := by
      intro e d k he
      refine ⟨fun w' hw' => ?_, fun hr _ _ => disagrees h hr, fun hr _ => trusts h hr,
        fun e w' hw' => ?_, fun hm => ⟨?_, fun hn => (hmiss ⟨hm, hn⟩).elim⟩⟩
      · cases he.symm.trans hw'
      · cases he.symm.trans hw'
        exact ⟨hdb _ _, h.bound⟩
      · rw [he, startWorld_of_readOnly hm]
        rfl
    obtain ⟨e, k, hp⟩ | ⟨n, k, hr, hp⟩ :=
      runPlan_of_faultFree embedder (sessionPlan embedder w) (d := w.dimension)
    case inl => exact hfails (ensure_of_runPlan_error h ht (hp (startWorld w) h.faultFree rfl))
    case inr =>
      have he := ensure_of_runPlan h ht hr.pos (hp (startWorld w) h.faultFree rfl)
      by_cases hw : Admits w n
      case neg => exact hfails (he.trans (dif_neg hw))
      case pos =>
        rw [dif_pos hw] at he
        refine ⟨fun w' hw' => ?_, fun hr _ _ => disagrees h hr, fun hr _ => trusts h hr,
          fun e w' hw' => ?_, fun hm => ⟨?_, fun hn => (hmiss ⟨hm, hn⟩).elim⟩⟩
        · cases he.symm.trans hw'
          refine ⟨n, rfl, fun _ => boundDb_width? (h := hw), fun hm => ⟨boundDb_isSome (h := hw) ht, ?_⟩⟩
          have hi : (startWorld w).db.indexMeta.isSome := by
            rw [startWorld_of_readWrite hm]
            simpa [inferredWorld] using h.indexMeta hm
          have hb : boundDb embedder w n hw =
              (startWorld w).db.finishBind embedder.modelId n (hw.size hm) := dif_pos hm
          rw [hb, Db.meta?_finishBind hi, Db.meta?_finishBind hi, if_neg (by decide), if_pos rfl,
            if_pos rfl]
          exact ⟨rfl, by simp⟩
        · cases he.symm.trans hw'
        · rw [he]
          exact dif_neg (by simp [hm])

section

variable {db : Db F} {mode : AccessMode} {wipe : Bool} {dimension : Option Nat} {llmFaults : Nat → Bool}

theorem opened_of_openDbConnection (hd : ∀ m, dimension = some m → 0 < m)
    (h : openDbConnection embedder wipe (.connect db mode dimension noFaults llmFaults) = .ok () w) :
    Opened w := by
  cases mode
  case readWrite =>
    cases openDbConnection_eq.symm.trans h
    have hi : ∀ b : Bool, (if b then db.ensureMeta.wipe else db.ensureMeta).indexMeta.isSome := by
      intro b
      cases b <;> simp
    exact ⟨rfl, rfl, fun _ => hi wipe, fun hw => by cases hw; rfl, hd⟩
  case readOnly =>
    cases wipe
    case true  => cases h
    case false =>
      have he : openDbConnection embedder false (.connect db .readOnly dimension noFaults llmFaults) =
          .ok () { World.connect db .readOnly dimension noFaults llmFaults with
            dirty := db.isDirty embedder.modelId } := by
        obtain ⟨units, embeddings, relations, dependencies, indexMeta⟩ := db
        cases embeddings <;> cases indexMeta <;> rfl
      cases he.symm.trans h
      exact ⟨rfl, rfl, nofun, nofun, hd⟩

-- Binding an embedder to an index of any state that has been opened in any way. The width that an
-- embedder is bound to is positive.
theorem openDbConnection_agrees (hd : ∀ m, dimension = some m → 0 < m)
    (h : openDbConnection embedder wipe (.connect db mode dimension noFaults llmFaults) = .ok () w) :
    Agrees embedder w :=
  agrees (opened_of_openDbConnection hd h)

end

-- An index with vectors of two components of the model `m`, and an embedder of this model whose vectors
-- have three.
def sampleIndex : Db naturals :=
  let db : Db naturals := { (Db.empty : Db naturals) with
    embeddings := some (.create 2 (by decide)), indexMeta := some .empty }
  (db.setMeta META_DIM_KEY "2").setMeta META_MODEL_KEY "m"

def sampleEmbedder : Embedder naturals where
  modelId        := "m"
  aembed _ texts := .ok (texts.map fun _ => [0, 0, 0])

theorem openDbConnection_agrees_sample : Agrees sampleEmbedder
    (.opened sampleEmbedder sampleIndex false none noFaults) :=
  openDbConnection_agrees (fun _ h => by cases h) openDbConnection_eq

-- The embedder is bound without a probe, as the index records its model.
theorem not_disagrees : ¬∀ n m,
    (World.opened sampleEmbedder sampleIndex false none noFaults).db.width? = some n →
    sampleEmbedder.aembed none [EMBEDDING_PROBE_TEXT] = .ok [List.replicate m 0] → m ≠ n →
    ∃ e w', ensureEmbeddingsBound sampleEmbedder (.opened sampleEmbedder sampleIndex false none noFaults) =
      .error e w' ∧ e.Disagrees := by
  intro h
  have ⟨e, w', he, _⟩ := h 2 3 rfl rfl (by decide)
  have ho : (ensureEmbeddingsBound sampleEmbedder
      (.opened sampleEmbedder sampleIndex false none noFaults)).outcome = .ok () := by decide +kernel
  rw [he] at ho
  cases ho

end Conn
