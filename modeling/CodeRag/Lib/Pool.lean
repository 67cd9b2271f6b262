import CodeRag.Lib.Coroutine

-- A fixed number of workers drain a shared queue. Each worker repeatedly takes a job off the queue
-- and runs the job's coroutine; an error ends the job but not the worker, which records it. A
-- schedule names, step by step, the worker that moves next.

universe u

inductive Worker (π σ ε : Type u)
  | idle (failures : List (π × ε))
  | busy (job : π) (body : Coroutine σ ε PUnit) (failures : List (π × ε))
  | finished (failures : List (π × ε))

namespace Worker

variable {π σ ε : Type u}

@[simp]
def failures : Worker π σ ε → List (π × ε)
  | idle fs | busy _ _ fs | finished fs => fs

@[simp]
def IsFinished : Worker π σ ε → Prop
  | finished _       => True
  | idle _ | busy .. => False

instance : (w : Worker π σ ε) → Decidable w.IsFinished
  | finished _ => .isTrue trivial
  | idle _     => .isFalse id
  | busy ..    => .isFalse id

-- The job a worker has at hand.
@[simp]
def claim : Worker π σ ε → Option (π × Coroutine σ ε PUnit)
  | busy p t _          => some (p, t)
  | idle _ | finished _ => none

end Worker

-- `returned` records the jobs that have ended, in the order in which they did.
structure Pool (π σ ε : Type u) where
  queue    : List π
  workers  : List (Worker π σ ε)
  state    : σ
  returned : List (π × Except ε PUnit)

namespace Pool

variable {π σ ε : Type u} {body : π → Coroutine σ ε PUnit} {c c' c'' : Pool π σ ε}

def start (jobs : List π) (n : Nat) (s : σ) : Pool π σ ε where
  queue    := jobs
  workers  := List.replicate n (.idle [])
  state    := s
  returned := []

def failures (c : Pool π σ ε) : List (π × ε) :=
  c.workers.flatMap Worker.failures

def Final (c : Pool π σ ε) : Prop :=
  ∀ w ∈ c.workers, w.IsFinished

instance : Decidable c.Final :=
  inferInstanceAs (Decidable (∀ w ∈ c.workers, w.IsFinished))

-- Lets worker `i` move, if it can.
def stepAt (body : π → Coroutine σ ε PUnit) (c : Pool π σ ε) (i : Nat) : Option (Pool π σ ε) :=
  match c.workers[i]? with
  | none | some (.finished _) => none
  | some (.idle fs) =>
    match c.queue with
    | []     => some { c with workers := c.workers.set i (.finished fs) }
    | p :: q => some { c with queue := q, workers := c.workers.set i (.busy p (body p) fs) }
  | some (.busy p (.step u n) fs) => some { c with
      workers := c.workers.set i (.busy p (n c.state) fs)
      state   := u c.state }
  | some (.busy p (.done (.ok a)) fs) => some { c with
      workers  := c.workers.set i (.idle fs)
      returned := c.returned ++ [(p, .ok a)] }
  | some (.busy p (.done (.error e)) fs) => some { c with
      workers  := c.workers.set i (.idle (fs ++ [(p, e)]))
      returned := c.returned ++ [(p, .error e)] }

def Step (body : π → Coroutine σ ε PUnit) (c c' : Pool π σ ε) : Prop :=
  ∃ i, c.stepAt body i = some c'

abbrev Steps (body : π → Coroutine σ ε PUnit) : Pool π σ ε → Pool π σ ε → Prop :=
  Relation.ReflTransGen (Step body)

-- Follows a schedule; moves that are not possible are skipped.
def follow (body : π → Coroutine σ ε PUnit) (c : Pool π σ ε) : List Nat → Pool π σ ε
  | []      => c
  | i :: is => ((c.stepAt body i).getD c).follow body is

theorem follow_steps (is : List Nat) : Steps body c (c.follow body is) := by
  induction is generalizing c
  case nil => exact .refl
  case cons i is ih =>
    cases h : c.stepAt body i
    case none   => simpa [follow, h] using ih (c := c)
    case some d => simpa [follow, h] using .head ⟨i, h⟩ (ih (c := d))

-- What a pool leaves when it runs `jobs` on `n` workers: the failures and the final state.
def Outcome (body : π → Coroutine σ ε PUnit) (jobs : List π) (n : Nat) (s : σ)
    (failures : List (π × ε)) (s' : σ) : Prop :=
  ∃ c, Steps body (start jobs n s) c ∧ c.Final ∧ c.failures = failures ∧ c.state = s'

-- All jobs of a pool with what is left of them to do.
def claims (body : π → Coroutine σ ε PUnit) (c : Pool π σ ε) : List (π × Coroutine σ ε PUnit) :=
  c.queue.map (fun p => (p, body p)) ++ c.workers.filterMap Worker.claim ++
    c.returned.map fun r => (r.1, .done r.2)

private theorem workers_split {ws : List (Worker π σ ε)} {w : Worker π σ ε} {i : Nat}
    (h : ws[i]? = some w) :
    ∃ l r : List (Worker π σ ε), ws = l ++ w :: r ∧ ∀ w', ws.set i w' = l ++ w' :: r := by
  have ⟨hi, hw⟩ := List.getElem?_eq_some_iff.mp h
  refine ⟨ws.take i, ws.drop (i + 1), ?_, fun w' => List.set_eq_take_append_cons_drop.trans ?_⟩
  · rw [←hw, List.cons_getElem_drop_succ, List.take_append_drop]
  · simp [hi]

-- What one step can do: a worker leaves, takes a job, runs a step of its job or ends it.
theorem step_cases (h : Step body c c') : ∃ l r fs,
    (c.queue = [] ∧ c.workers = l ++ .idle fs :: r ∧
      c' = { c with workers := l ++ .finished fs :: r }) ∨
    (∃ p q, c.queue = p :: q ∧ c.workers = l ++ .idle fs :: r ∧
      c' = { c with queue := q, workers := l ++ .busy p (body p) fs :: r }) ∨
    (∃ p u n, c.workers = l ++ .busy p (.step u n) fs :: r ∧
      c' = { c with workers := l ++ .busy p (n c.state) fs :: r, state := u c.state }) ∨
    (∃ p a, c.workers = l ++ .busy p (.done (.ok a)) fs :: r ∧
      c' = { c with
        workers := l ++ .idle fs :: r, returned := c.returned ++ [(p, .ok a)] }) ∨
    (∃ p e, c.workers = l ++ .busy p (.done (.error e)) fs :: r ∧
      c' = { c with
        workers := l ++ .idle (fs ++ [(p, e)]) :: r
        returned := c.returned ++ [(p, .error e)] }) := by
  have ⟨i, h⟩ := h
  unfold stepAt at h
  split at h <;> try contradiction
  all_goals obtain ⟨l, r, hw, hs⟩ := workers_split (by assumption)
  case h_3 fs _ =>
    split at h <;> (simp only [Option.some.injEq] at h; subst h)
    · exact ⟨l, r, fs, .inl ⟨‹_›, hw, by rw [hs]⟩⟩
    · exact ⟨l, r, fs, .inr <| .inl ⟨_, _, ‹_›, hw, by rw [hs]⟩⟩
  all_goals
    simp only [Option.some.injEq] at h
    subst h
  case h_4 fs _ => exact ⟨l, r, fs, .inr <| .inr <| .inl ⟨_, _, _, hw, by rw [hs]⟩⟩
  case h_5 fs _ => exact ⟨l, r, fs, .inr <| .inr <| .inr <| .inl ⟨_, _, hw, by rw [hs]⟩⟩
  case h_6 fs _ => exact ⟨l, r, fs, .inr <| .inr <| .inr <| .inr ⟨_, _, hw, by rw [hs]⟩⟩

-- Seen as a bag of jobs, a step either changes nothing or runs one step of one job.
theorem step_claims (h : Step body c c') :
    ((c'.claims body).Perm (c.claims body) ∧ c'.state = c.state) ∨
    (∃ p u n rest, (c.claims body).Perm ((p, .step u n) :: rest) ∧
      (c'.claims body).Perm ((p, n c.state) :: rest) ∧ c'.state = u c.state) := by
  obtain ⟨l, r, fs, ⟨hq, hw, rfl⟩ | ⟨p, q, hq, hw, rfl⟩ | ⟨p, u, n, hw, rfl⟩ | ⟨p, a, hw, rfl⟩ |
    ⟨p, e, hw, rfl⟩⟩ := step_cases h
  case inl => exact .inl (by simp [claims, hw, List.filterMap_cons])
  case inr.inl =>
    refine .inl ⟨?_, rfl⟩
    simp only [claims, hq, hw, Worker.claim, List.filterMap_append, List.filterMap_cons,
      List.map_cons, List.append_assoc, List.cons_append]
    exact .trans (.append_left _ List.perm_middle) List.perm_middle
  case inr.inr.inl =>
    refine .inr ⟨p, u, n, c.queue.map (fun p => (p, body p)) ++ (l.filterMap Worker.claim ++
      (r.filterMap Worker.claim ++ c.returned.map fun r => (r.1, .done r.2))), ?_, ?_, rfl⟩
    all_goals
      simp only [claims, hw, Worker.claim, List.filterMap_append, List.filterMap_cons,
        List.append_assoc, List.cons_append]
      exact .trans (.append_left _ List.perm_middle) List.perm_middle
  all_goals
    refine .inl ⟨?_, rfl⟩
    simp only [claims, hw, Worker.claim, List.filterMap_append, List.filterMap_cons,
      List.map_append, List.map_cons, List.map_nil, List.append_assoc, List.cons_append]
    refine .append_left _ (.append_left _ ?_)
    rw [←List.append_assoc]
    exact List.perm_append_singleton _ _

theorem claims_start {jobs : List π} {n : Nat} {s : σ} :
    (start jobs n s).claims body = jobs.map fun p => (p, body p) := by
  simp [claims, start, List.filterMap_replicate, Worker.claim]

theorem steps_jobs (h : Steps body c c') :
    ((c'.claims body).map Prod.fst).Perm ((c.claims body).map Prod.fst) := by
  induction h
  case refl => rfl
  case tail hs ih =>
    obtain ⟨hp, _⟩ | ⟨p, u, n, rest, hp, hp', _⟩ := step_claims hs
    case inl => exact (hp.map _).trans ih
    case inr => exact ((hp'.map Prod.fst).trans (hp.map Prod.fst).symm).trans ih

theorem start_jobs {jobs : List π} {n : Nat} {s : σ} (h : Steps body (start jobs n s) c) :
    ((c.claims body).map Prod.fst).Perm jobs := by
  have hp := steps_jobs h
  rwa [claims_start, List.map_map, Function.comp_def, List.map_id'] at hp

private theorem exists_finished_middle {l r : List (Worker π σ ε)} {w : Worker π σ ε}
    (hw : ¬w.IsFinished) :
    (∃ w' ∈ l ++ w :: r, w'.IsFinished) ↔ ∃ w' ∈ l ++ r, w'.IsFinished := by
  constructor
  case mp =>
    rintro ⟨w', hm, hf⟩
    have hn : w' ≠ w := fun he => hw (he ▸ hf)
    exact ⟨w', by simpa [hn] using hm, hf⟩
  case mpr =>
    rintro ⟨w', hm, hf⟩
    exact ⟨w', List.mem_append.mpr ((List.mem_append.mp hm).imp_right (.tail _)), hf⟩

-- A worker only leaves when the queue is empty.
theorem steps_queue {jobs : List π} {n : Nat} {s : σ} (h : Steps body (start jobs n s) c)
    (hf : ∃ w ∈ c.workers, w.IsFinished) : c.queue = [] := by
  induction h
  case refl =>
    have ⟨w, hw, hf⟩ := hf
    rw [(List.mem_replicate.mp hw).right] at hf
    contradiction
  case tail hs ih =>
    obtain ⟨l, r, fs, ⟨hq, hw, rfl⟩ | ⟨p, q, hq, hw, rfl⟩ | ⟨p, u, n, hw, rfl⟩ | ⟨p, a, hw, rfl⟩ |
      ⟨p, e, hw, rfl⟩⟩ := step_cases hs
    case inl => exact hq
    all_goals
      rw [exists_finished_middle (by simp)] at hf
      have hq' := ih (hw ▸ (exists_finished_middle (by simp)).mpr hf)
    case inr.inl => exact absurd hq' (by simp [hq])
    all_goals exact hq'

theorem steps_workers (h : Steps body c c') : c'.workers.length = c.workers.length := by
  induction h
  case refl => rfl
  case tail hs ih =>
    rw [←ih]
    obtain ⟨l, r, fs, ⟨hq, hw, rfl⟩ | ⟨p, q, hq, hw, rfl⟩ | ⟨p, u, n, hw, rfl⟩ | ⟨p, a, hw, rfl⟩ |
      ⟨p, e, hw, rfl⟩⟩ := step_cases hs <;> simp [hw]

-- The failure that a job leaves, if any.
def failed : π × Except ε PUnit → Option (π × ε)
  | (_, .ok _)    => none
  | (p, .error e) => some (p, e)

-- The workers report exactly the jobs that ended with an error.
theorem steps_failures {jobs : List π} {n : Nat} {s : σ} (h : Steps body (start jobs n s) c) :
    c.failures.Perm (c.returned.filterMap failed) := by
  induction h
  case refl => simp [failures, start, List.flatMap_replicate, Worker.failures]
  case tail hs ih =>
    obtain ⟨l, r, fs, ⟨hq, hw, rfl⟩ | ⟨p, q, hq, hw, rfl⟩ | ⟨p, u, n, hw, rfl⟩ | ⟨p, a, hw, rfl⟩ |
      ⟨p, e, hw, rfl⟩⟩ := step_cases hs
    case inr.inr.inr.inr =>
      simp only [failures, hw, List.flatMap_append, List.flatMap_cons, Worker.failures,
        List.filterMap_append, failed, List.filterMap_cons, List.filterMap_nil] at ih ⊢
      refine .trans ?_ (ih.append_right _)
      simp only [List.append_assoc]
      exact .append_left _ (.append_left _ List.perm_append_comm)
    all_goals simpa [failures, hw, failed, List.filterMap_cons] using ih

theorem mem_failures_iff {jobs : List π} {n : Nat} {s : σ} {p : π} {e : ε}
    (h : Steps body (start jobs n s) c) : (p, e) ∈ c.failures ↔ (p, .error e) ∈ c.returned := by
  rw [(steps_failures h).mem_iff, List.mem_filterMap]
  constructor
  case mp =>
    rintro ⟨⟨p', r⟩, hm, he⟩
    cases r <;> simp [failed] at he
    exact he.left ▸ he.right ▸ hm
  case mpr => exact fun hm => ⟨_, hm, rfl⟩

-- When all workers have left, every job has been run exactly once.
theorem final_returned {jobs : List π} {n : Nat} {s : σ} (hn : jobs ≠ [] → 0 < n)
    (h : Steps body (start jobs n s) c) (hf : c.Final) :
    c.claims body = c.returned.map (fun r => (r.1, .done r.2)) ∧
      (c.returned.map Prod.fst).Perm jobs := by
  have hq : c.queue = [] := by
    by_cases hj : jobs = []
    case pos =>
      have hp := start_jobs h
      rw [hj, List.perm_nil, claims] at hp
      simp only [List.map_append, List.append_eq_nil_iff, List.map_eq_nil_iff] at hp
      exact hp.left.left
    case neg =>
      have hl := steps_workers h
      simp only [start, List.length_replicate] at hl
      have ⟨w, hw⟩ := List.exists_mem_of_length_pos (hl ▸ hn hj)
      exact steps_queue h ⟨w, hw, hf w hw⟩
  have hw : c.workers.filterMap Worker.claim = [] := by
    refine List.filterMap_eq_nil_iff.mpr fun w hw => ?_
    have := hf w hw
    cases w <;> first | rfl | contradiction
  have hc : c.claims body = c.returned.map fun r => (r.1, .done r.2) := by
    simp [claims, hq, hw]
  refine ⟨hc, ?_⟩
  have hp := start_jobs h
  rw [hc] at hp
  simpa [Function.comp_def] using hp

end Pool
