import CodeRag.Services.Dependencies
import CodeRag.Services.Sync
import CodeRag.Storage.Theorems.DuckDB

-- Under which names the jars of a classpath are found.

namespace Dependencies

variable {F : Floats} {digit : Char → Bool} {jars : List String} {jar name : String}
variable {x y artifact version : List Char} {c : Char}

section Names

theorem jarName_of_name_eq (h : Path.name jar = x ++ ".jar".toList) (hx : x ≠ []) : jarName jar = x := by
  have hname : Path.name (.ofList (Path.name jar)) = x ++ '.' :: ['j', 'a', 'r'] :=
    (Path.name_ofList_name jar).trans h
  have hs : Path.suffix (.ofList (Path.name jar)) = .ofList ['.', 'j', 'a', 'r'] :=
    Path.suffix_of_name_eq_append hname hx (by simp) (by simp)
  unfold jarName FilePath.stem
  rw [hs, h, String.toList_ofList, String.toList_ofList, String.length_ofList, String.length_ofList,
    List.length_append]
  rw [String.toList_ofList]
  exact List.take_left' (Nat.add_sub_cancel _ 4).symm

-- No hyphen, or what comes after the last one is a number or not.
theorem libName_of_not_mem (h : '-' ∉ jarName jar) :
    libName digit jar = .ok (.ofList (jarName jar)) := by
  unfold libName
  rw [List.splitOn_eq_singleton h]
  rfl

private theorem libName_of_eq_append (h : jarName jar = x ++ '-' :: y) (hy : '-' ∉ y) :
    libName digit jar = if y = [] then .error (.other "string index out of range")
      else if y.head?.any digit then .ok (.ofList x) else .ok (.ofList (jarName jar)) := by
  have hsplit : (jarName jar).splitOn '-' = x.splitOn '-' ++ [y] := by
    rw [h, List.splitOn_append_cons_self, List.splitOn_eq_singleton hy]
  have hlen : 1 < (x.splitOn '-' ++ [y]).length := by
    have hpos := List.length_pos_of_ne_nil (List.splitOn_ne_nil '-' x)
    simpa using hpos
  unfold libName
  simp only [hsplit, hlen, if_true, List.getLast?_concat, Option.getD_some, List.dropLast_concat,
    List.intercalate_splitOn]
  cases y
  case nil  => rfl
  case cons => simp only [List.head?_cons, Option.any_some, reduceCtorEq, if_false]; rfl

private theorem split_last (h : '-' ∈ x) : ∃ x' y, x = x' ++ '-' :: y ∧ '-' ∉ y := by
  obtain ⟨l, l', hl, hn⟩ := List.eq_append_cons_of_mem (List.mem_reverse.mpr h)
  refine ⟨l'.reverse, l.reverse, ?_, by simpa using hn⟩
  have hr := congrArg List.reverse hl
  simpa using hr

-- A name that ends with a hyphen has no last part.
def Faulty (jar : String) : Prop :=
  (jarName jar).getLast? = some '-'

theorem libName_error_iff : (∃ e, libName digit jar = .error e) ↔ Faulty jar := by
  unfold Faulty
  by_cases h : '-' ∈ jarName jar
  case neg =>
    rw [libName_of_not_mem h]
    refine ⟨?_, fun hl => (h (List.mem_of_getLast? hl)).elim⟩
    rintro ⟨e, ⟨⟩⟩
  case pos =>
    obtain ⟨x, y, hx, hy⟩ := split_last h
    rw [libName_of_eq_append hx hy]
    split
    case isTrue hn => simp [hx, hn]
    case isFalse hn =>
      refine ⟨fun ⟨_, he⟩ => ?_, fun hl => ?_⟩
      · split at he <;> cases he
      · have hlast : (x ++ '-' :: y).getLast? = y.getLast? := by
          rw [List.getLast?_append, List.getLast?_cons_of_ne_nil hn]
          cases hy' : y.getLast?
          case none   => exact (hn (List.getLast?_eq_none_iff.mp hy')).elim
          case some c => rfl
        rw [hx, hlast] at hl
        exact (hy (List.mem_of_getLast? hl)).elim

-- The jar `artifact-version.jar`.
def IsJar (digit : Char → Bool) (artifact version : List Char) (jar : String) : Prop :=
  Path.name jar = artifact ++ '-' :: version ++ ".jar".toList ∧ version.head?.any digit

-- No part of the name of an artifact starts with a digit.
def IsArtifact (digit : Char → Bool) (artifact : List Char) : Prop :=
  ∀ part ∈ artifact.splitOn '-', part.head?.any digit = false

-- A jar is cached under the name of its artifact iff the version has no hyphen.
theorem libName_isJar (h : IsJar digit artifact version jar) :
    libName digit jar = .ok (.ofList artifact) ↔ '-' ∉ version := by
  have hname : jarName jar = artifact ++ '-' :: version := jarName_of_name_eq h.left (by simp)
  constructor
  case mp =>
    intro he hv
    obtain ⟨x, y, rfl, hy⟩ := split_last hv
    rw [libName_of_eq_append (x := artifact ++ '-' :: x) (by simpa using hname) hy] at he
    split at he
    · cases he
    · split at he
      · have hl := congrArg String.length (Except.ok.inj he)
        simp at hl
      · have hl := congrArg String.length (Except.ok.inj he)
        simp [hname] at hl
  case mpr =>
    intro hv
    have hne : version ≠ [] := by
      rintro rfl
      cases h.right
    rw [libName_of_eq_append hname hv, if_neg hne, if_pos h.right]

end Names

section Run

open EStateM World Conn

variable {w : World F} {pre post : List String}

theorem cacheJarPath_of_error {e : Exn} (h : libName digit jar = .error e) :
    cacheJarPath digit jar w = .error e w := by
  unfold cacheJarPath
  rw [h]
  rfl

theorem cacheJarPath_of_ok (h : libName digit jar = .ok name) :
    (cacheJarPath digit jar : Conn F Unit) = setDependencyPath name jar := by
  unfold cacheJarPath
  rw [h]

-- The last jar with a name, of those before the first one whose name is faulty.
def lastNamed (digit : Char → Bool) (name : String) : List String → Option String
  | []          => none
  | jar :: jars => (libName digit jar).toOption.bind fun n =>
    (lastNamed digit name jars).or (if n = name then some jar else none)

theorem lastNamed_cons : lastNamed digit name (jar :: jars) = (libName digit jar).toOption.bind fun n =>
    (lastNamed digit name jars).or (if n = name then some jar else none) :=
  rfl

theorem lastNamed_cons_of_error {e : Exn} (h : libName digit jar = .error e) :
    lastNamed digit name (jar :: jars) = none := by
  rw [lastNamed_cons, h]
  rfl

theorem lastNamed_cons_of_ok {n : String} (h : libName digit jar = .ok n) :
    lastNamed digit name (jar :: jars) =
      (lastNamed digit name jars).or (if n = name then some jar else none) := by
  rw [lastNamed_cons, h]
  rfl

theorem lastNamed_eq_none (h : ∀ p ∈ jars, libName digit p ≠ .ok name) :
    lastNamed digit name jars = none := by
  induction jars
  case nil => rfl
  case cons p jars ih =>
    rw [List.forall_mem_cons] at h
    cases hp : libName digit p
    case error e => exact lastNamed_cons_of_error hp
    case ok n =>
      rw [lastNamed_cons_of_ok hp, ih h.right, if_neg fun he : n = name => h.left (he ▸ hp)]
      rfl

theorem lastNamed_eq_some (hpre : ∀ p ∈ pre, ¬Faulty p) (hn : libName digit jar = .ok name)
    (hpost : ∀ p ∈ post, libName digit p ≠ .ok name) :
    lastNamed digit name (pre ++ jar :: post) = some jar := by
  induction pre
  case nil =>
    rw [List.nil_append, lastNamed_cons_of_ok hn, lastNamed_eq_none hpost, if_pos rfl]
    rfl
  case cons p pre ih =>
    rw [List.forall_mem_cons] at hpre
    rw [List.cons_append]
    cases hp : libName digit p
    case error e => exact (hpre.left (libName_error_iff.mp ⟨e, hp⟩)).elim
    case ok n    => rw [lastNamed_cons_of_ok hp, ih hpre.right]; rfl

-- Only the last jar may have a faulty name.
def FaultyLast (jars : List String) : Prop :=
  ∀ pre p post, jars = pre ++ p :: post → post ≠ [] → ¬Faulty p

theorem FaultyLast.tail (h : FaultyLast (jar :: jars)) : FaultyLast jars :=
  fun pre p post he => h (jar :: pre) p post (by rw [he]; rfl)

theorem ne_of_lastNamed_eq_none (hf : FaultyLast jars) (h : lastNamed digit name jars = none) :
    ∀ p ∈ jars, libName digit p ≠ .ok name := by
  induction jars
  case nil => simp
  case cons p jars ih =>
    rw [List.forall_mem_cons]
    cases hp : libName digit p
    case error e =>
      have hnil : jars = [] := by
        by_contra hn
        exact hf [] p jars rfl hn (libName_error_iff.mp ⟨e, hp⟩)
      subst hnil
      simp
    case ok n =>
      rw [lastNamed_cons_of_ok hp, Option.or_eq_none_iff] at h
      refine ⟨fun he => ?_, ih hf.tail h.left⟩
      rw [if_pos (Except.ok.inj he)] at h
      cases h.right

theorem exists_of_lastNamed (hf : FaultyLast jars) (h : lastNamed digit name jars = some jar) :
    ∃ pre post, jars = pre ++ jar :: post ∧ libName digit jar = .ok name ∧
      ∀ p ∈ post, libName digit p ≠ .ok name := by
  induction jars
  case nil => cases h
  case cons p jars ih =>
    cases hp : libName digit p
    case error e =>
      rw [lastNamed_cons_of_error hp] at h
      cases h
    case ok n =>
      rw [lastNamed_cons_of_ok hp] at h
      cases hl : lastNamed digit name jars <;> rw [hl] at h
      case some q =>
        cases h
        obtain ⟨pre, post, rfl, hq, hpost⟩ := ih hf.tail hl
        exact ⟨p :: pre, post, rfl, hq, hpost⟩
      case none =>
        rw [Option.none_or] at h
        split at h <;> cases h
        case isTrue hn => exact ⟨[], jars, rfl, hn ▸ hp, ne_of_lastNamed_eq_none hf.tail hl⟩

-- The loop stops at a faulty name. The table then has the last jar of each name.
theorem forM_cacheJarPath (hf : w.FaultFree) (hm : w.mode = .readWrite) :
    (jars.forM (cacheJarPath digit)).post (fun r w' =>
      (r = .ok () ↔ ∀ jar ∈ jars, ¬Faulty jar) ∧
      ∃ t, w' = { w with db := { w.db with dependencies := t } } ∧
        ∀ n, t.find? n = ((lastNamed digit n jars).map fun p => { name := n, path := p }).or
          (w.db.dependencies.find? n)) w := by
  induction jars generalizing w
  case nil => exact post_pure ⟨by simp, _, rfl, fun _ => rfl⟩
  case cons jar jars ih =>
    cases hn : libName digit jar
    case error e =>
      refine post_of_error (bind_of_error (cacheJarPath_of_error hn)) ⟨?_, _, rfl, fun n => ?_⟩
      · have hfaulty := libName_error_iff.mp ⟨e, hn⟩
        simp [hfaulty]
      · rw [lastNamed_cons_of_error hn]
        rfl
    case ok m =>
      have hx : cacheJarPath digit jar w = .ok () { w with db := { w.db with
          dependencies := w.db.dependencies.insert { name := m, path := jar } } } := by
        rw [cacheJarPath_of_ok hn]
        exact execute_of_faultFree hf hm
      have hok : ¬Faulty jar := fun hfaulty => by
        obtain ⟨e, he⟩ := libName_error_iff.mpr hfaulty
        cases hn.symm.trans he
      have h := ih (w := { w with db := { w.db with
        dependencies := w.db.dependencies.insert { name := m, path := jar } } }) hf hm
      show (cacheJarPath digit jar >>= fun _ => jars.forM (cacheJarPath digit)).post _ w
      unfold EStateM.post at h ⊢
      rw [bind_of_ok hx]
      obtain ⟨hr, t, hw, ht⟩ := h
      refine ⟨by simpa [hok] using hr, t, hw, fun n => ?_⟩
      have hkey : key ({ name := m, path := jar } : DependencyRow) = m := rfl
      rw [ht, lastNamed_cons_of_ok hn, Table.find?_insert, hkey]
      cases lastNamed digit n jars
      case some q => rfl
      case none =>
        by_cases he : n = m
        · rw [if_pos he, if_pos he.symm, he]; rfl
        · rw [if_neg he, if_neg (Ne.symm he)]; rfl

private theorem tryCatch_pure {x : Conn F Unit} :
    tryCatch x (fun _ => pure ()) w = .ok () (x w).state := by
  cases hx : x w
  case ok    => rw [tryCatch_of_ok hx]; rfl
  case error => rw [tryCatch_of_error hx]; rfl

-- What the processing of a classpath is for: whatever was cached before, for every jar
-- `artifact-version.jar` a jar of the artifact is found under its name, and every jar is reached.
structure Caches (F : Floats) (digit : Char → Bool) (jars : List String) : Prop where
  found   : ∀ w : World F, w.FaultFree → w.mode = .readWrite → ∀ artifact version, ∀ jar ∈ jars,
    IsArtifact digit artifact → IsJar digit artifact version jar →
      ∃ version' jar', IsJar digit artifact version' jar' ∧
        (getDependencyPath (.ofList artifact) (cacheJars digit jars w).state).outcome = .ok (some jar')
  reached : ∀ w : World F, w.FaultFree → w.mode = .readWrite → ∀ pre jar post,
    jars = pre ++ jar :: post → (pre.forM (cacheJarPath digit) w).outcome = .ok ()

theorem getDependencyPath_cacheJars (hf : w.FaultFree) (hm : w.mode = .readWrite) :
    (getDependencyPath name (cacheJars digit jars w).state).outcome =
      .ok ((lastNamed digit name jars).or ((w.db.dependencies.find? name).map DependencyRow.path)) := by
  have hrun : (jars.forM (cacheJarPath digit)).post _ w := forM_cacheJarPath hf hm
  have hstate : (cacheJars digit jars w).state = (jars.forM (cacheJarPath digit) w).state := by
    unfold cacheJars
    rw [tryCatch_pure]
    rfl
  obtain ⟨_, t, hw, ht⟩ := hrun
  have hf' : ({ w with db := { w.db with dependencies := t } } : World F).FaultFree := hf
  rw [hstate, hw]
  unfold getDependencyPath
  rw [select_of_faultFree hf']
  simp only [Result.outcome_ok, Except.ok.injEq]
  rw [ht]
  cases lastNamed digit name jars <;> rfl

-- Only the last name may be faulty, and of every artifact a jar whose version has no hyphen comes last.
structure Cacheable (digit : Char → Bool) (jars : List String) : Prop where
  faulty : FaultyLast jars
  last   : ∀ artifact version, ∀ jar ∈ jars, IsArtifact digit artifact → IsJar digit artifact version jar →
    ∃ pre version' jar' post, jars = pre ++ jar' :: post ∧ IsJar digit artifact version' jar' ∧
      '-' ∉ version' ∧ ∀ p ∈ post, libName digit p ≠ .ok (.ofList artifact)

theorem Caches.cacheable (h : Caches F digit jars) : Cacheable digit jars := by
  have hw : (World.connect (F := F) .empty .readWrite none (fun _ => false) fun _ => false).FaultFree :=
    rfl
  have hlast : FaultyLast jars := by
    rintro pre p post rfl hne hp
    obtain ⟨q, rest, rfl⟩ := List.exists_cons_of_ne_nil hne
    have hr := h.reached _ hw rfl (pre ++ [p]) q rest (by simp)
    have hrun : ((pre ++ [p]).forM (cacheJarPath digit)).post _
      (World.connect (F := F) .empty .readWrite none (fun _ => false) fun _ => false) :=
        forM_cacheJarPath hw rfl
    exact hrun.left.mp hr p (by simp) hp
  refine ⟨hlast, fun artifact version jar hjar ha hi => ?_⟩
  obtain ⟨version', jar', hi', hd⟩ := h.found _ hw rfl artifact version jar hjar ha hi
  rw [getDependencyPath_cacheJars hw rfl] at hd
  have hnamed : lastNamed digit (.ofList artifact) jars = some jar' := by
    simpa [World.connect, Db.empty] using hd
  obtain ⟨pre, post, he, hn, hpost⟩ := exists_of_lastNamed hlast hnamed
  exact ⟨pre, version', jar', post, he, hi', (libName_isJar hi').mp hn, hpost⟩

theorem Cacheable.caches (h : Cacheable digit jars) : Caches F digit jars := by
  obtain ⟨hlast, h⟩ := h
  refine ⟨fun w hf hm artifact version jar hjar ha hi => ?_, fun w hf hm pre jar post he => ?_⟩
  · obtain ⟨pre, version', jar', post, rfl, hi', hv, hpost⟩ := h artifact version jar hjar ha hi
    have hpre : ∀ p ∈ pre, ¬Faulty p := by
      intro p hp
      obtain ⟨l, l', rfl⟩ := List.append_of_mem hp
      exact hlast l p (l' ++ jar' :: post) (by simp) (by simp)
    refine ⟨version', jar', hi', ?_⟩
    rw [getDependencyPath_cacheJars hf hm, lastNamed_eq_some hpre ((libName_isJar hi').mpr hv) hpost]
    rfl
  · have hrun : (pre.forM (cacheJarPath digit)).post _ w := forM_cacheJarPath hf hm
    refine hrun.left.mpr fun p hp => ?_
    obtain ⟨l, l', rfl⟩ := List.append_of_mem hp
    exact hlast l p (l' ++ jar :: post) (by rw [he]; simp) (by simp)

theorem caches_iff : Caches F digit jars ↔ FaultyLast jars ∧
    ∀ artifact version, ∀ jar ∈ jars, IsArtifact digit artifact → IsJar digit artifact version jar →
      ∃ pre version' jar' post, jars = pre ++ jar' :: post ∧ IsJar digit artifact version' jar' ∧
        '-' ∉ version' ∧ ∀ p ∈ post, libName digit p ≠ .ok (.ofList artifact) :=
  ⟨fun h => ⟨h.cacheable.faulty, h.cacheable.last⟩, fun h => Cacheable.caches ⟨h.left, h.right⟩⟩

-- After the sync of such a classpath, whichever tool reports it, a jar of every artifact is found.
theorem syncMaven_finds {classpath : String} (h : Cacheable digit (mavenJars classpath)) (hf : w.FaultFree)
    (hm : w.mode = .readWrite) (hj : jar ∈ mavenJars classpath) (ha : IsArtifact digit artifact)
    (hi : IsJar digit artifact version jar) :
    ∃ version' jar', IsJar digit artifact version' jar' ∧ (getDependencyPath (.ofList artifact)
      (syncMaven digit (some classpath) w).state).outcome = .ok (some jar') :=
  h.caches.found w hf hm artifact version jar hj ha hi

theorem syncGradle_finds {output : String} (h : Cacheable digit (gradleJars output)) (hf : w.FaultFree)
    (hm : w.mode = .readWrite) (hj : jar ∈ gradleJars output) (ha : IsArtifact digit artifact)
    (hi : IsJar digit artifact version jar) :
    ∃ version' jar', IsJar digit artifact version' jar' ∧ (getDependencyPath (.ofList artifact)
      (syncGradle digit (some output) w).state).outcome = .ok (some jar') :=
  h.caches.found w hf hm artifact version jar hj ha hi

-- The libraries that dependency discovery reports.
def libraries (digit : Char → Bool) : List String → List (String × String)
  | []          => []
  | jar :: jars =>
    ((libName digit jar).toOption.map fun n => (n, jar) :: libraries digit jars).getD []

private theorem libraries_cons : libraries digit (jar :: jars) =
    ((libName digit jar).toOption.map fun n => (n, jar) :: libraries digit jars).getD [] :=
  rfl

private theorem state_forM_cacheJarPath : (jars.forM (cacheJarPath digit) w).state =
    ((libraries digit jars).forM (fun l => setDependencyPath l.1 l.2) w).state := by
  induction jars generalizing w
  case nil => rfl
  case cons jar jars ih =>
    show ((cacheJarPath digit jar >>= fun _ => jars.forM (cacheJarPath digit)) w).state = _
    rw [libraries_cons]
    cases hn : libName digit jar
    case error e => rw [bind_of_error (cacheJarPath_of_error hn)]; rfl
    case ok n =>
      rw [cacheJarPath_of_ok hn]
      show _ = ((setDependencyPath n jar >>= fun _ => _) w).state
      cases hs : setDependencyPath n jar w
      case error => rw [bind_of_error hs, bind_of_error hs]
      case ok    => rw [bind_of_ok hs, bind_of_ok hs]; exact ih

-- The sync of a project caches the jars of its classpath.
theorem syncDependencies_eq {project : Project} (h : project.libraries = libraries digit jars) :
    IndexStack.syncDependencies project = (cacheJars digit jars : Conn F Unit) := by
  funext w
  unfold IndexStack.syncDependencies cacheJars
  rw [tryCatch_pure, tryCatch_pure, h, state_forM_cacheJarPath]

private theorem libName_guava : libName Char.isDigit "/m2/guava-31.1-jre.jar" = .ok "guava-31.1-jre" := by
  decide +kernel

private theorem libName_foo :
    libName Char.isDigit "/m2/foo-.jar" = .error (.other "string index out of range") := by
  decide +kernel

-- A version with a hyphen, and a faulty name before another jar.
theorem guava_not_found : ¬Caches naturals Char.isDigit ["/m2/guava-31.1-jre.jar"] ∧
    ¬Caches naturals Char.isDigit ["/m2/foo-.jar", "/m2/bar-1.0.jar"] := by
  have hw : (World.connect (F := naturals) .empty .readWrite none (fun _ => false) fun _ => false).FaultFree :=
    rfl
  constructor
  case left =>
    intro h
    have hi : IsJar Char.isDigit "guava".toList "31.1-jre".toList "/m2/guava-31.1-jre.jar" :=
      ⟨by decide +kernel, by decide +kernel⟩
    have ha : IsArtifact Char.isDigit "guava".toList := by
      unfold IsArtifact
      decide +kernel
    obtain ⟨_, _, _, hd⟩ := h.found _ hw rfl _ _ _ (.head _) ha hi
    rw [getDependencyPath_cacheJars hw rfl, lastNamed_cons_of_ok libName_guava,
      if_neg (by decide +kernel)] at hd
    cases hd
  case right =>
    intro h
    have hr := h.reached _ hw rfl ["/m2/foo-.jar"] _ [] rfl
    have hrun : (["/m2/foo-.jar"].forM (cacheJarPath Char.isDigit)).post _
      (World.connect (F := naturals) .empty .readWrite none (fun _ => false) fun _ => false) :=
        forM_cacheJarPath hw rfl
    exact hrun.left.mp hr _ (.head _) (libName_error_iff.mp ⟨_, libName_foo⟩)

end Run

end Dependencies
