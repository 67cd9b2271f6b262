import CodeRag.Services.Config

-- What is left of a configuration when it is updated.

variable {f : ConfigFile} {r : ConfigRequest} {saving : Saving} {c c' : DistillerConfig}
variable {s arg old : Option String} {n : Option Int}

theorem blankStringToNone_idem : blankStringToNone (blankStringToNone s) = blankStringToNone s := by
  cases s
  case none   => rfl
  case some s =>
    unfold blankStringToNone
    by_cases h : s.strip = ""
    case pos => simp [Option.filter, h]
    case neg => simp [Option.filter, h, String.strip_strip]

namespace DistillerConfig

-- The two settings that a remote embedder needs are both set or both unset.
def Paired (c : DistillerConfig) : Prop :=
  c.embeddingBase.isSome = c.embeddingModel.isSome

-- Validation does not change it.
def Stable (c : DistillerConfig) : Prop :=
  c.blankStringsToNone = c

theorem blankStringsToNone_stable : c.blankStringsToNone.Stable := by
  simp only [Stable, blankStringsToNone, blankStringToNone_idem]

end DistillerConfig

theorem ConfigFile.load_stable : f.load.config.Stable := by
  unfold ConfigFile.load
  cases f.content
  case none   => rfl
  case some c => exact DistillerConfig.blankStringsToNone_stable

namespace ConfigRequest

def Positive (r : ConfigRequest) : Prop :=
  (∀ n ∈ r.timeout, 0 < n) ∧ ∀ n ∈ r.maxConcurrency, 0 < n

def replaceString (arg old : Option String) : Option String :=
  if arg.isSome then blankStringToNone arg else old

def replaceInt (arg : Option Int) (old : PositiveInt) : PositiveInt :=
  match arg with
  | none   => old
  | some n => if h : 0 < n then ⟨n, h⟩ else old

-- The requested fields are replaced. The embedding fields are cleared before that, if requested.
def replace (r : ConfigRequest) (c : DistillerConfig) : DistillerConfig := { c with
  apiBase           := replaceString r.url c.apiBase
  apiKey            := replaceString r.key c.apiKey
  model             := replaceString r.model c.model
  provider          := replaceString r.provider c.provider
  timeout           := replaceInt r.timeout c.timeout
  maxConcurrency    := replaceInt r.maxConcurrency c.maxConcurrency
  embeddingBase     := replaceString r.embeddingUrl (if r.clearEmbedding then none else c.embeddingBase)
  embeddingKey      := replaceString r.embeddingKey (if r.clearEmbedding then none else c.embeddingKey)
  embeddingModel    := replaceString r.embeddingModel (if r.clearEmbedding then none else c.embeddingModel)
  embeddingProvider :=
    replaceString r.embeddingProvider (if r.clearEmbedding then none else c.embeddingProvider) }

theorem blankStringToNone_or (h : blankStringToNone old = old) :
    blankStringToNone (arg.or old) = replaceString arg old := by
  cases arg
  case none   => exact h
  case some s => rfl

theorem validatePositiveInt_eq (name : String) (h : ∀ k ∈ n, 0 < k) :
    ∃ t, validatePositiveInt name n = .ok t ∧ ∀ m, t.getD m = replaceInt n m := by
  cases n
  case none   => exact ⟨none, rfl, fun _ => rfl⟩
  case some k =>
    have hk : 0 < k := h k rfl
    exact ⟨some ⟨k, hk⟩, by simp [validatePositiveInt, hk], fun _ => by simp [replaceInt, hk]⟩

theorem validatePositiveInt_error (name : String) (h : ¬∀ k ∈ n, 0 < k) :
    ∃ e, validatePositiveInt name n = .error e := by
  cases n
  case none   => exact (h nofun).elim
  case some k =>
    have hk : ¬0 < k := fun hk => h fun _ hm => Option.some.inj hm ▸ hk
    exact ⟨_, by rw [validatePositiveInt, dif_neg hk]⟩

-- The configuration with the requested values assigned, which is then validated again.
private def assign (r : ConfigRequest) (c : DistillerConfig) (timeout maxConcurrency : PositiveInt) :
    DistillerConfig :=
  let c := { c with
    apiBase        := r.url.or c.apiBase
    apiKey         := r.key.or c.apiKey
    model          := r.model.or c.model
    provider       := r.provider.or c.provider
    timeout        := timeout
    maxConcurrency := maxConcurrency }
  let c := if r.clearEmbedding then c.clearEmbedding else c
  { c with
    embeddingBase     := r.embeddingUrl.or c.embeddingBase
    embeddingKey      := r.embeddingKey.or c.embeddingKey
    embeddingModel    := r.embeddingModel.or c.embeddingModel
    embeddingProvider := r.embeddingProvider.or c.embeddingProvider }

private theorem assign_eq (h : c.Stable) :
    (r.assign c (replaceInt r.timeout c.timeout)
      (replaceInt r.maxConcurrency c.maxConcurrency)).blankStringsToNone = r.replace c := by
  have hb := congrArg DistillerConfig.apiBase h
  have hk := congrArg DistillerConfig.apiKey h
  have hm := congrArg DistillerConfig.model h
  have hp := congrArg DistillerConfig.provider h
  have heb := congrArg DistillerConfig.embeddingBase h
  have hek := congrArg DistillerConfig.embeddingKey h
  have hem := congrArg DistillerConfig.embeddingModel h
  have hep := congrArg DistillerConfig.embeddingProvider h
  have hn : blankStringToNone none = none := rfl
  unfold assign replace DistillerConfig.blankStringsToNone
  cases r.clearEmbedding
  case false =>
    simp only [Bool.false_eq_true, if_false, blankStringToNone_or hb, blankStringToNone_or hk,
      blankStringToNone_or hm, blankStringToNone_or hp, blankStringToNone_or heb,
      blankStringToNone_or hek, blankStringToNone_or hem, blankStringToNone_or hep]
  case true =>
    simp only [if_true, DistillerConfig.clearEmbedding, blankStringToNone_or hb,
      blankStringToNone_or hk, blankStringToNone_or hm, blankStringToNone_or hp,
      blankStringToNone_or hn]

-- An accepted request replaces the requested fields, and only requests with positive integers and
-- paired embedding settings are accepted.
theorem applyConfigUpdates_iff (h : c.Stable) :
    c.applyConfigUpdates r = .ok c' ↔ r.Positive ∧ c' = r.replace c ∧ c'.Paired := by
  by_cases hp : r.Positive
  case pos =>
    obtain ⟨t, ht, hgt⟩ := validatePositiveInt_eq "timeout" hp.left
    obtain ⟨m, hm, hgm⟩ := validatePositiveInt_eq "max_concurrency" hp.right
    have ha : c.applyConfigUpdates r = if (r.replace c).embeddingBase.isSome ≠
        (r.replace c).embeddingModel.isSome then .error embeddingPairError else .ok (r.replace c) := by
      rw [←assign_eq h, ←hgt, ←hgm]
      unfold DistillerConfig.applyConfigUpdates
      rw [ht, hm]
      rfl
    rw [ha]
    constructor
    case mp =>
      intro he
      split at he <;> cases he
      case isFalse hn => exact ⟨hp, rfl, not_not.mp hn⟩
    case mpr =>
      rintro ⟨_, rfl, hpair⟩
      exact if_neg (not_not.mpr hpair)
  case neg =>
    have he : ∃ e, c.applyConfigUpdates r = .error e := by
      unfold DistillerConfig.applyConfigUpdates
      by_cases ht : ∀ n ∈ r.timeout, 0 < n
      case neg =>
        obtain ⟨e, he⟩ := validatePositiveInt_error "timeout" ht
        exact ⟨e, by rw [he]; rfl⟩
      case pos =>
        obtain ⟨t, ht', _⟩ := validatePositiveInt_eq "timeout" ht
        obtain ⟨e, he⟩ := validatePositiveInt_error "max_concurrency"
          fun hm => hp ⟨ht, hm⟩
        exact ⟨e, by rw [ht', he]; rfl⟩
    obtain ⟨e, he⟩ := he
    rw [he]
    exact iff_of_false nofun fun h => hp h.left

theorem replace_of_not_hasUpdates (h : r.hasUpdates = false) : r.Positive ∧ r.replace c = c := by
  simp only [hasUpdates, embeddingFieldsRequested, distillFieldsRequested, Bool.or_eq_false_iff,
    Option.isSome_eq_false_iff, Option.isNone_iff_eq_none] at h
  obtain ⟨⟨⟨⟨⟨hu, hk⟩, hm⟩, hp⟩, hc⟩, ⟨⟨⟨⟨hu', hk'⟩, hm'⟩, hp'⟩, ht⟩, hmc⟩ := h
  refine ⟨⟨by rw [ht]; exact nofun, by rw [hmc]; exact nofun⟩, ?_⟩
  simp [replace, replaceString, replaceInt, hu, hk, hm, hp, hc, hu', hk', hm', hp', ht, hmc]

theorem replace_stable (h : c.Stable) (hp : r.Positive) (hpair : (r.replace c).Paired) :
    (r.replace c).Stable := by
  have ha : c.applyConfigUpdates r = .ok (r.replace c) :=
    (applyConfigUpdates_iff h).mpr ⟨hp, rfl, hpair⟩
  rw [←assign_eq h]
  exact DistillerConfig.blankStringsToNone_stable

end ConfigRequest

-- What the failure points of a write come to.
def Saving.Keeps (saving : Saving) (c c' : DistillerConfig) : Prop :=
  match saving with
  | .noDirectory | .written => True
  | .notOpened              => c' = c
  | .broken                 => c' = {}

namespace ConfigFile

-- The file after a request, also when the request is rejected.
def after (f : ConfigFile) (r : ConfigRequest) (saving : Saving) : ConfigFile :=
  match f.loadOrUpdateConfig r saving with
  | .ok (_, f', _) => f'
  | .error _       => f

-- The requested fields have been replaced, and nothing else.
structure Updated (r : ConfigRequest) (c c' : DistillerConfig) : Prop where
  positive : r.Positive
  replaced : c' = r.replace c
  paired   : c'.Paired

-- All of the request is in effect or nothing of it, and all of it when success is reported.
structure Transacts (f : ConfigFile) (r : ConfigRequest) (saving : Saving) : Prop where
  atomic  : (f.after r saving).load.config = f.load.config ∨
    Updated r f.load.config (f.after r saving).load.config
  success : ∀ result, f.loadOrUpdateConfig r saving = .ok result →
    Updated r f.load.config (f.after r saving).load.config

-- A request without updates finds paired settings, or a request that is not rejected is saved to a
-- file that is written completely, or whose old or default content is what is requested.
def Keeps (f : ConfigFile) (r : ConfigRequest) (saving : Saving) : Prop :=
  if r.hasUpdates then
    r.Positive → (r.replace f.load.config).Paired → saving.Keeps f.load.config (r.replace f.load.config)
  else
    f.load.config.Paired

section Runs

variable {e : Exn} {result : DistillerConfig} {f' : ConfigFile} {written : Option Nat}

theorem transacts_of_error (h : f.loadOrUpdateConfig r saving = .error e) : f.Transacts r saving := by
  have ha : f.after r saving = f := by rw [after, h]
  refine ⟨.inl (by rw [ha]), fun result he => ?_⟩
  cases h.symm.trans he

-- A request that succeeds has to have been carried out.
theorem transacts_of_ok (h : f.loadOrUpdateConfig r saving = .ok (result, f', written))
    (hp : r.Positive) : f.Transacts r saving ↔
      r.replace f.load.config = f'.load.config ∧ f'.load.config.Paired := by
  have ha : f.after r saving = f' := by rw [after, h]
  constructor
  case mp =>
    intro ht
    have hs := ht.success _ h
    rw [ha] at hs
    exact ⟨hs.replaced.symm, hs.paired⟩
  case mpr =>
    rintro ⟨hr, hpair⟩
    have hs : Updated r f.load.config (f.after r saving).load.config := by
      rw [ha]
      exact ⟨hp, hr.symm, hpair⟩
    exact ⟨.inr hs, fun _ _ => hs⟩

theorem loadOrUpdateConfig_idle (h : r.hasUpdates = false) :
    f.loadOrUpdateConfig r saving = .ok (f.load.config, f, none) := by
  simp [loadOrUpdateConfig, h, pure, Except.pure]

theorem loadOrUpdateConfig_rejected (saving : Saving) (h : r.hasUpdates)
    (hr : ¬(r.Positive ∧ (r.replace f.load.config).Paired)) :
    ∃ e, f.loadOrUpdateConfig r saving = .error e := by
  cases ha : f.load.config.applyConfigUpdates r
  case error e => exact ⟨e, by simp [loadOrUpdateConfig, h, ha, bind, Except.bind]⟩
  case ok c    =>
    obtain ⟨hp, rfl, hpair⟩ := (ConfigRequest.applyConfigUpdates_iff f.load_stable).mp ha
    exact (hr ⟨hp, hpair⟩).elim

theorem loadOrUpdateConfig_accepted (saving : Saving) (h : r.hasUpdates) (hp : r.Positive)
    (hpair : (r.replace f.load.config).Paired) : f.loadOrUpdateConfig r saving =
      (f.save (r.replace f.load.config) saving).map (r.replace f.load.config, ·) := by
  have ha : f.load.config.applyConfigUpdates r = .ok (r.replace f.load.config) :=
    (ConfigRequest.applyConfigUpdates_iff f.load_stable).mpr ⟨hp, rfl, hpair⟩
  simp only [loadOrUpdateConfig, h, not_true, if_false, ha, bind, Except.bind]
  cases f.save (r.replace f.load.config) saving <;> rfl

end Runs

-- An update is a transaction iff its write does not fail on the file itself, unless what is left in
-- the file is what was requested.
theorem transacts_iff : f.Transacts r saving ↔ f.Keeps r saving := by
  cases hu : r.hasUpdates
  case false =>
    obtain ⟨hp, hr⟩ := ConfigRequest.replace_of_not_hasUpdates (c := f.load.config) hu
    have hk : f.Keeps r saving ↔ f.load.config.Paired := by simp [Keeps, hu]
    rw [transacts_of_ok (loadOrUpdateConfig_idle hu) hp, hk]
    exact and_iff_right hr
  case true =>
    have hk : f.Keeps r saving ↔ (r.Positive → (r.replace f.load.config).Paired →
        saving.Keeps f.load.config (r.replace f.load.config)) := by simp [Keeps, hu]
    rw [hk]
    by_cases hacc : r.Positive ∧ (r.replace f.load.config).Paired
    case neg =>
      obtain ⟨e, he⟩ := loadOrUpdateConfig_rejected saving hu hacc
      exact iff_of_true (transacts_of_error he) fun hp hpair => (hacc ⟨hp, hpair⟩).elim
    case pos =>
      obtain ⟨hp, hpair⟩ := hacc
      have hs := ConfigRequest.replace_stable f.load_stable hp hpair
      have hrun := loadOrUpdateConfig_accepted saving hu hp hpair
      unfold save at hrun
      rw [if_neg (show ¬(_ ≠ _) from not_not.mpr hpair)] at hrun
      simp only [hp, hpair, true_imp_iff]
      cases saving
      case noDirectory => exact iff_of_true (transacts_of_error hrun) trivial
      case notOpened   =>
        rw [transacts_of_ok hrun hp]
        refine ⟨And.left, fun h => ⟨h, ?_⟩⟩
        rw [← show r.replace f.load.config = f.load.config from h]
        exact hpair
      case broken      =>
        rw [transacts_of_ok hrun hp]
        exact ⟨And.left, fun h => ⟨h, rfl⟩⟩
      case written     =>
        have hl : ({ content := some (r.replace f.load.config), version := f.version + 1 } :
            ConfigFile).load.config = r.replace f.load.config := hs
        rw [transacts_of_ok hrun hp, hl]
        exact iff_of_true ⟨rfl, hpair⟩ trivial

section Sample

-- A configured file, and a request for another timeout.
private def configured : ConfigFile where
  content := some { model := some "m", apiBase := some "u", provider := some "p" }
  version := 1

private def slower : ConfigRequest where
  timeout := some 600

private theorem configured_load : configured.load.config =
    { model := some "m", apiBase := some "u", provider := some "p" } := by
  have hs : ∀ s : String, s.toList.length = 1 → (∀ c ∈ s.toList, String.isBlank c = false) →
      blankStringToNone (some s) = some s := by
    intro s hl hc
    have hne : s ≠ "" := by rintro rfl; cases hl
    simp [blankStringToNone, Option.filter, String.strip_of_not_blank hc, hne]
  have hm := hs "m" rfl (List.forall_mem_singleton.mpr rfl)
  have hu := hs "u" rfl (List.forall_mem_singleton.mpr rfl)
  have hp := hs "p" rfl (List.forall_mem_singleton.mpr rfl)
  have hn : blankStringToNone none = none := rfl
  simp only [load, configured, Option.map_some, Option.getD_some, DistillerConfig.blankStringsToNone,
    hm, hu, hp, hn]

-- The call reports success when the file cannot be opened, and also when the write breaks off, which
-- leaves the defaults.
theorem updates_lost : ¬configured.Transacts slower .notOpened ∧
    ¬configured.Transacts slower .broken ∧
    (configured.after slower .broken).load.config = {} ∧ configured.load.config ≠ {} := by
  have hu : slower.hasUpdates := rfl
  have hp : slower.Positive := ⟨by rintro _ ⟨⟩; decide, nofun⟩
  have hpair : (slower.replace configured.load.config).Paired := by rw [configured_load]; rfl
  have hne : configured.load.config.model ≠ none := by rw [configured_load]; exact nofun
  refine ⟨?_, ?_, ?_, fun h => hne (by rw [h])⟩
  · rw [transacts_iff, Keeps, if_pos hu]
    intro h
    have ht := congrArg DistillerConfig.timeout (h hp hpair)
    rw [configured_load] at ht
    exact absurd ht (by decide)
  · rw [transacts_iff, Keeps, if_pos hu]
    intro h
    exact hne (congrArg DistillerConfig.model (h hp hpair))
  · have hrun := loadOrUpdateConfig_accepted .broken hu hp hpair
    unfold save at hrun
    rw [if_neg (show ¬(_ ≠ _) from not_not.mpr hpair)] at hrun
    rw [after, hrun]
    rfl

end Sample
end ConfigFile
