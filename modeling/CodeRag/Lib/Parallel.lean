import CodeRag.Lib.Pool

-- Rules for pools: every schedule ends, a rely-guarantee rule for all jobs of a pool, and the
-- condition under which the jobs do not notice in which order they are run.

universe u

namespace Coroutine

variable {σ ε α : Type u}

-- The rest of a coroutine after one step.
def Rest (t' t : Coroutine σ ε α) : Prop :=
  ∃ u n s, t = step u n ∧ t' = n s

theorem rest_wf : WellFounded (Rest (σ := σ) (ε := ε) (α := α)) := by
  refine ⟨fun t => ?_⟩
  induction t
  case done =>
    refine ⟨_, ?_⟩
    rintro _ ⟨_, _, _, h, _⟩
    cases h
  case step ih =>
    refine ⟨_, ?_⟩
    rintro _ ⟨_, _, s, h, rfl⟩
    cases h
    exact ih s

end Coroutine

namespace Pool

variable {π σ ε : Type u} {body : π → Coroutine σ ε PUnit} {c c' : Pool π σ ε}
variable {jobs : List π} {n : Nat} {s s' : σ} {p : π} {e : ε} {r : Except ε PUnit}

section Termination

private def weight : Worker π σ ε → Nat
  | .busy ..    => 2
  | .idle _     => 1
  | .finished _ => 0

private def measure (c : Pool π σ ε) : Nat :=
  3 * c.queue.length + (c.workers.map weight).sum

private def Smaller (x y : π × Coroutine σ ε PUnit) : Prop :=
  x.2.Rest y.2

-- A step that runs no job makes the measure smaller.
private theorem step_measure (h : Step body c c') (hs : (c'.claims body).Perm (c.claims body)) :
    measure c' < measure c ∨ ∃ p u n rest, (c.claims body).Perm ((p, .step u n) :: rest) ∧
      (c'.claims body).Perm ((p, n c.state) :: rest) := by
  obtain ⟨l, r, fs, ⟨hq, hw, rfl⟩ | ⟨p, q, hq, hw, rfl⟩ | ⟨p, u, n, hw, rfl⟩ | ⟨p, a, hw, rfl⟩ |
    ⟨p, e, hw, rfl⟩⟩ := step_cases h
  case inr.inr.inl =>
    obtain ⟨hp, hs'⟩ | ⟨p', u', n', rest, hp, hp', _⟩ := step_claims h
    case inr => exact .inr ⟨_, _, _, _, hp, hp'⟩
    refine .inr ⟨p, u, n, c.queue.map (fun p => (p, body p)) ++ (l.filterMap Worker.claim ++
      (r.filterMap Worker.claim ++ c.returned.map fun r => (r.1, .done r.2))), ?_, ?_⟩
    all_goals
      simp only [claims, hw, Worker.claim, List.filterMap_append, List.filterMap_cons,
        List.append_assoc, List.cons_append]
      exact .trans (.append_left _ List.perm_middle) List.perm_middle
  all_goals
    left
    simp only [measure, hw, weight, List.map_append, List.map_cons, List.sum_append, List.sum_cons]
    first | omega | (rw [hq, List.length_cons]; omega)

theorem step_wf : WellFounded fun c' c => Step (π := π) (σ := σ) (ε := ε) body c c' := by
  have hr : WellFounded (Smaller (π := π) (σ := σ) (ε := ε)) := InvImage.wf _ Coroutine.rest_wf
  refine Subrelation.wf ?_ <| InvImage.wf (fun c => ((c.claims body : Multiset _), measure c)) <|
    WellFounded.prod_lex hr.cutExpand Nat.lt_wfRel.wf
  intro c' c h
  have hrun : ∀ p u n rest, (c.claims body).Perm ((p, .step u n) :: rest) →
      (c'.claims body).Perm ((p, n c.state) :: rest) →
      Relation.CutExpand Smaller (c'.claims body : Multiset (π × Coroutine σ ε PUnit))
        (c.claims body : Multiset (π × Coroutine σ ε PUnit)) := by
    intro p u n rest hp hp'
    refine ⟨{(p, n c.state)}, (p, .step u n), ?_, ?_⟩
    · simp only [Multiset.mem_singleton, forall_eq]
      exact ⟨u, n, _, rfl, rfl⟩
    · rw [Multiset.coe_eq_coe.mpr hp, Multiset.coe_eq_coe.mpr hp']
      simp only [←Multiset.cons_coe, Multiset.add_comm _ {_}, Multiset.singleton_add]
      exact Multiset.cons_swap ..
  obtain ⟨hp, _⟩ | ⟨p, u, n, rest, hp, hp', _⟩ := step_claims h
  case inr => exact .left _ _ (hrun p u n rest hp hp')
  obtain hm | ⟨p, u, n, rest, hp, hp'⟩ := step_measure h hp
  case inr => exact .left _ _ (hrun p u n rest hp hp')
  simp only [InvImage, Multiset.coe_eq_coe.mpr hp]
  exact .right _ hm

-- As long as a worker has not left, some worker can move.
theorem exists_step (h : ¬c.Final) : ∃ c', Step body c c' := by
  simp only [Final, not_forall] at h
  have ⟨w, hw, hf⟩ := h
  have ⟨i, hi⟩ := List.mem_iff_getElem?.mp hw
  suffices (c.stepAt body i).isSome by
    have ⟨c', hc⟩ := Option.isSome_iff_exists.mp this
    exact ⟨c', i, hc⟩
  unfold stepAt
  rw [hi]
  match w with
  | .idle fs                    => dsimp only; split <;> rfl
  | .busy _ (.step _ _) _       => rfl
  | .busy _ (.done (.ok _)) _   => rfl
  | .busy _ (.done (.error _)) _ => rfl
  | .finished _                 => exact absurd trivial hf

theorem exists_final : ∃ c', Steps body c c' ∧ c'.Final := by
  induction c using (step_wf : WellFounded fun c' c => Step body c c').induction
  case _ c ih =>
    by_cases hf : c.Final
    case pos => exact ⟨c, .refl, hf⟩
    case neg =>
      have ⟨c', hs⟩ : ∃ c', Step body c c' := exists_step hf
      have ⟨c'', hs', hf'⟩ := ih c' hs
      exact ⟨c'', .head hs hs', hf'⟩

theorem exists_outcome : ∃ fs s', Outcome body jobs n s fs s' :=
  have ⟨c, hs, hf⟩ : ∃ c, Steps body (start jobs n s) c ∧ c.Final := exists_final
  ⟨_, _, c, hs, hf, rfl, rfl⟩

end Termination

section Parallel

variable {R : π → Rely σ} {G : π → σ → σ → Prop} {Q : π → Except ε PUnit → σ → Prop}

-- What each job guarantees is what every other job relies on.
abbrev Compatible (R : π → Rely σ) (G : π → σ → σ → Prop) (p q : π) : Prop :=
  (∀ s s', G p s s' → R q s s') ∧ ∀ s s', G q s s' → R p s s'

theorem steps_wp (hp : jobs.Pairwise (Compatible R G))
    (hb : ∀ p ∈ jobs, (body p).wp (R p) (G p) (Q p) s) (h : Steps body (start jobs n s) c) :
    ∀ x ∈ c.claims body, x.2.wp (R x.1) (G x.1) (Q x.1) c.state := by
  induction h
  case refl =>
    rw [claims_start]
    simpa [start] using hb
  case tail c c' hs hs' ih =>
    obtain ⟨hc, he⟩ | ⟨p, u, n, rest, hc, hc', he⟩ := step_claims hs'
    case inl => exact fun x hx => he ▸ ih x (hc.subset hx)
    have hh := ih _ (hc.symm.subset <| .head _) _ ((R p).refl _)
    have hj := (hc.symm.map Prod.fst).trans (start_jobs hs)
    have hp' := hj.symm.pairwise hp And.symm
    intro x hx
    rw [he]
    cases hc'.subset hx
    case head => exact hh.right
    case tail hx =>
      have hx' := ih x (hc.symm.subset <| .tail _ hx)
      have hr := (List.pairwise_cons.mp hp').left x.1 (List.mem_map_of_mem hx)
      exact Coroutine.wp_env hx' (hr.left _ _ hh.left)

-- All steps of the pool are steps of its jobs.
theorem steps_rel {S : Rely σ} (hp : jobs.Pairwise (Compatible R G))
    (hb : ∀ p ∈ jobs, (body p).wp (R p) (G p) (Q p) s)
    (hg : ∀ p ∈ jobs, ∀ s s', G p s s' → S s s') (h : Steps body (start jobs n s) c) :
    S s c.state := by
  induction h
  case refl => exact S.refl s
  case tail c c' hs hs' ih =>
    obtain ⟨_, he⟩ | ⟨p, u, n, rest, hc, _, he⟩ := step_claims hs'
    case inl => exact he ▸ ih
    have hm := hc.symm.subset (.head _)
    have hj : p ∈ jobs := (start_jobs hs).subset (List.mem_map_of_mem hm)
    have ⟨hg', _⟩ := steps_wp hp hb hs _ hm _ ((R p).refl _)
    exact he ▸ S.trans ih (hg p hj _ _ hg')

theorem final_post (hn : jobs ≠ [] → 0 < n) (hp : jobs.Pairwise (Compatible R G))
    (hb : ∀ p ∈ jobs, (body p).wp (R p) (G p) (Q p) s) (h : Steps body (start jobs n s) c)
    (hf : c.Final) (hr : (p, r) ∈ c.returned) : Q p r c.state := by
  have hm : (p, .done r) ∈ c.claims body := by
    rw [(final_returned hn h hf).left]
    exact List.mem_map.mpr ⟨(p, r), hr, rfl⟩
  exact steps_wp hp hb h _ hm _ ((R p).refl _)

theorem exists_returned (hn : jobs ≠ [] → 0 < n) (h : Steps body (start jobs n s) c)
    (hf : c.Final) (hj : p ∈ jobs) : ∃ r, (p, r) ∈ c.returned := by
  have := (final_returned hn h hf).right.symm.subset hj
  simpa using this

-- Without failures, every job has reached its postcondition.
theorem Outcome.post (h : Outcome body jobs n s [] s') (hn : jobs ≠ [] → 0 < n)
    (hp : jobs.Pairwise (Compatible R G))
    (hb : ∀ p ∈ jobs, (body p).wp (R p) (G p) (Q p) s) (hj : p ∈ jobs) : Q p (.ok ⟨⟩) s' := by
  obtain ⟨c, hs, hf, hfs, rfl⟩ := h
  have ⟨r, hr⟩ := exists_returned hn hs hf hj
  cases r
  case ok    => exact final_post hn hp hb hs hf hr
  case error => exact absurd ((mem_failures_iff hs).mpr hr) (by simp [hfs])

theorem Outcome.rel {S : Rely σ} {fs : List (π × ε)} (h : Outcome body jobs n s fs s')
    (hp : jobs.Pairwise (Compatible R G)) (hb : ∀ p ∈ jobs, (body p).wp (R p) (G p) (Q p) s)
    (hg : ∀ p ∈ jobs, ∀ s s', G p s s' → S s s') : S s s' := by
  obtain ⟨c, hs, _, _, rfl⟩ := h
  exact steps_rel hp hb hg hs

end Parallel

section Sequential

-- Runs the jobs one after another.
def sequential (body : π → Coroutine σ ε PUnit) : List π → σ → List (π × ε) × σ
  | [], s      => ([], s)
  | p :: ps, s =>
    match (body p).run s with
    | .ok _ s'    => sequential body ps s'
    | .error e s' => ((p, e) :: (sequential body ps s').1, (sequential body ps s').2)

-- One worker can finish the job it has at hand.
private theorem busy_steps {t : Coroutine σ ε PUnit} {q : List π} {fs : List (π × ε)}
    {rs : List (π × Except ε PUnit)} : ∃ rs', Steps body
      { queue := q, workers := [.busy p t fs], state := s, returned := rs }
      { queue := q, state := (t.run s).state, returned := rs', workers :=
        [.idle (match (t.run s).outcome with | .ok _ => fs | .error e => fs ++ [(p, e)])] } := by
  induction t generalizing s
  case done r =>
    cases r
    case ok    => exact ⟨_, .single ⟨0, rfl⟩⟩
    case error => exact ⟨_, .single ⟨0, rfl⟩⟩
  case step u n ih =>
    have ⟨rs', hs⟩ := ih s (s := u s)
    exact ⟨rs', .head ⟨0, rfl⟩ hs⟩

private theorem idle_steps {fs : List (π × ε)} {rs : List (π × Except ε PUnit)} :
    ∃ rs', Steps body { queue := jobs, workers := [.idle fs], state := s, returned := rs }
      { queue := [], workers := [.finished (fs ++ (sequential body jobs s).1)]
        state := (sequential body jobs s).2, returned := rs' } := by
  induction jobs generalizing fs s rs
  case nil => exact ⟨rs, .single ⟨0, by simp [stepAt, sequential]⟩⟩
  case cons p q ih =>
    have ⟨rs₁, h₁⟩ : ∃ rs₁, Steps body
        { queue := q, workers := [.busy p (body p) fs], state := s, returned := rs } _ := busy_steps
    simp only [sequential]
    cases hr : (body p).run s <;> simp only [hr] at h₁ ⊢
    case ok =>
      obtain ⟨rs₂, h₂⟩ := ih
      exact ⟨rs₂, .head ⟨0, rfl⟩ (h₁.trans h₂)⟩
    case error a s' =>
      have ⟨rs₂, h₂⟩ : ∃ rs₂, Steps body
          { queue := q, workers := [.idle (fs ++ [(p, a)])], state := s', returned := rs₁ } _ := ih
      rw [List.append_assoc, List.singleton_append] at h₂
      exact ⟨rs₂, .head ⟨0, rfl⟩ (h₁.trans h₂)⟩

-- A single worker runs the jobs one after another.
theorem sequential_outcome :
    Outcome body jobs 1 s (sequential body jobs s).1 (sequential body jobs s).2 := by
  have ⟨rs, h⟩ : ∃ rs, Steps body
      { queue := jobs, workers := [.idle []], state := s, returned := [] } _ := idle_steps
  exact ⟨_, h, by simp [Final], by simp [failures], rfl⟩

end Sequential

section Alone

variable {R : π → Rely σ} {G : π → σ → σ → Prop} {E : π → σ → σ → Prop}
variable (hp : jobs.Pairwise (Compatible R G))
variable (hb : ∀ p ∈ jobs, (body p).mirrors (R p) (G p) (E p) s s)

include hp hb

-- However the jobs are interleaved, each of them returns what it returns when it is run alone.
theorem final_alone (hn : jobs ≠ [] → 0 < n) (h : Steps body (start jobs n s) c) (hf : c.Final)
    (hr : (p, r) ∈ c.returned) :
    r = ((body p).run s).outcome ∧ E p c.state ((body p).run s).state :=
  final_post hn hp hb h hf hr

theorem returned_perm (hn : jobs ≠ [] → 0 < n) (h : Steps body (start jobs n s) c) (hf : c.Final) :
    c.returned.Perm (jobs.map fun p => (p, ((body p).run s).outcome)) := by
  have he : c.returned = (c.returned.map Prod.fst).map fun p => (p, ((body p).run s).outcome) := by
    rw [List.map_map]
    conv_lhs => rw [←List.map_id c.returned]
    refine List.map_congr_left fun x hx => ?_
    rw [Function.comp_apply, id, ←(final_alone hp hb hn h hf hx).left]
  rw [he]
  exact (final_returned hn h hf).right.map _

-- Each job that raises when it is run alone is reported once, and no other.
theorem failures_alone (hn : jobs ≠ [] → 0 < n) (h : Steps body (start jobs n s) c) (hf : c.Final) :
    c.failures.Perm (jobs.filterMap fun p => failed (p, ((body p).run s).outcome)) := by
  refine (steps_failures h).trans (((returned_perm hp hb hn h hf).filterMap _).trans ?_)
  rw [List.filterMap_map]
  rfl

end Alone
end Pool
