import CodeRag.Lib.StateM

-- Routines over a shared state whose steps depend on what the outside world does, and that may have to
-- wait for each other. A step for which `upd` is `none` is not possible in the given state.

universe u

inductive Routine (σ ι ε α : Type u) : Type u
  | done (r : Except ε α)
  | step (upd : σ → ι → Option σ) (next : σ → ι → Routine σ ι ε α)

namespace Routine

variable {σ ι ε α β : Type u}

protected def bind : Routine σ ι ε α → (α → Routine σ ι ε β) → Routine σ ι ε β
  | done (.ok a), k    => k a
  | done (.error e), _ => done (.error e)
  | step u n, k        => step u fun s i => (n s i).bind k

instance : Monad (Routine σ ι ε) where
  pure a := done (.ok a)
  bind   := Routine.bind

def throw (e : ε) : Routine σ ι ε α :=
  done (.error e)

-- Runs a routine to its end, however it ends.
def attempt : Routine σ ι ε α → Routine σ ι ε (Except ε α)
  | done r   => done (.ok r)
  | step u n => step u fun s i => (n s i).attempt

def handle (t : Routine σ ι ε α) (h : ε → Routine σ ι ε α) : Routine σ ι ε α := do
  match ← t.attempt with
  | .ok a    => pure a
  | .error e => h e

-- `try: t finally: c`
def andFinally (t : Routine σ ι ε α) (c : Routine σ ι ε PUnit) : Routine σ ι ε α := do
  let r ← t.attempt
  c
  done r

-- A single step.
def act (upd : σ → ι → Option σ) (result : σ → ι → Except ε α) : Routine σ ι ε α :=
  step upd fun s i => done (result s i)

variable {R : Rely σ} {G : σ → σ → Prop} {t : Routine σ ι ε α} {Q Q' : Except ε α → σ → Prop}
variable {s s' : σ}

-- `wp R G t Q s`: whenever the environment of `t` acts within `R` from `s` on, every step of `t` is
-- within `G`, and `Q` holds of the outcome of `t` and of every state from then on.
def wp (R : Rely σ) (G : σ → σ → Prop) : Routine σ ι ε α → (Except ε α → σ → Prop) → σ → Prop
  | done r, Q, s   => ∀ s', R s s' → Q r s'
  | step u n, Q, s =>
    ∀ s', R s s' → ∀ i s'', u s' i = some s'' → G s' s'' ∧ wp R G (n s' i) Q s''

theorem wp_env (h : t.wp R G Q s) (hs : R s s') : t.wp R G Q s' := by
  cases t
  case done => exact fun s'' hs' => h s'' (R.trans hs hs')
  case step => exact fun s'' hs' => h s'' (R.trans hs hs')

theorem wp_mono (h : t.wp R G Q s) (hq : ∀ r s', Q r s' → Q' r s') : t.wp R G Q' s := by
  induction t generalizing s
  case done => exact fun s' hs => hq _ _ (h s' hs)
  case step n ih =>
    exact fun s' hs i s'' hu => ⟨(h s' hs i s'' hu).left, ih s' i (h s' hs i s'' hu).right⟩

theorem wp_done {r : Except ε α} (h : ∀ s', R s s' → Q r s') :
    (done r : Routine σ ι ε α).wp R G Q s :=
  h

-- The postcondition of the first part of a sequence is what the second part needs.
theorem wp_bind {k : α → Routine σ ι ε β} {Q : Except ε β → σ → Prop} {P : Except ε α → σ → Prop}
    (h : t.wp R G P s) (ok : ∀ a s, P (.ok a) s → (k a).wp R G Q s)
    (error : ∀ e s, P (.error e) s → Q (.error e) s) : (t >>= k).wp R G Q s := by
  induction t generalizing s
  case done r =>
    cases r
    case ok a    => exact ok a s (h s (R.refl s))
    case error e => exact fun s' hs => error e s' (h s' hs)
  case step n ih =>
    exact fun s' hs i s'' hu => ⟨(h s' hs i s'' hu).left, ih s' i (h s' hs i s'' hu).right⟩

theorem wp_attempt {Q : Except ε (Except ε α) → σ → Prop} (h : t.wp R G (fun r => Q (.ok r)) s) :
    t.attempt.wp R G Q s := by
  induction t generalizing s
  case done => exact h
  case step n ih =>
    exact fun s' hs i s'' hu => ⟨(h s' hs i s'' hu).left, ih s' i (h s' hs i s'' hu).right⟩

end Routine

-- What can happen to a set of calls: a new call starts, or a call makes a step.
inductive Move (π ι : Type u)
  | start (p : π)
  | run (k : Nat) (i : ι)

-- Calls that work on a common state, in the order in which they have started.
structure Calls (π σ ι ε α : Type u) where
  state : σ
  tasks : List (π × Routine σ ι ε α)

namespace Calls

variable {π σ ι ε α : Type u} {body : π → Nat → Routine σ ι ε α} {c c' c'' : Calls π σ ι ε α}

def init (s : σ) : Calls π σ ι ε α where
  state := s
  tasks := []

-- The body of a call is told the number of the call.
def move (body : π → Nat → Routine σ ι ε α) (c : Calls π σ ι ε α) :
    Move π ι → Option (Calls π σ ι ε α)
  | .start p => some { c with tasks := c.tasks ++ [(p, body p c.tasks.length)] }
  | .run k i =>
    match c.tasks[k]? with
    | some (p, .step u n) => (u c.state i).map fun s => {
        state := s
        tasks := c.tasks.set k (p, n c.state i) }
    | _ => none

def Step (body : π → Nat → Routine σ ι ε α) (c c' : Calls π σ ι ε α) : Prop :=
  ∃ m, c.move body m = some c'

abbrev Steps (body : π → Nat → Routine σ ι ε α) : Calls π σ ι ε α → Calls π σ ι ε α → Prop :=
  Relation.ReflTransGen (Step body)

-- Follows a schedule; moves that are not possible are skipped.
def follow (body : π → Nat → Routine σ ι ε α) (c : Calls π σ ι ε α) :
    List (Move π ι) → Calls π σ ι ε α
  | []      => c
  | m :: ms => ((c.move body m).getD c).follow body ms

theorem follow_steps (ms : List (Move π ι)) : Steps body c (c.follow body ms) := by
  induction ms generalizing c
  case nil => exact .refl
  case cons m ms ih =>
    cases h : c.move body m
    case none   => simpa [follow, h] using ih (c := c)
    case some d => simpa [follow, h] using .head ⟨m, h⟩ (ih (c := d))

-- The call `k` has returned or raised.
def Ended (c : Calls π σ ι ε α) (k : Nat) (p : π) (r : Except ε α) : Prop :=
  c.tasks[k]? = some (p, .done r)

theorem step_cases (h : Step body c c') :
    (∃ p, c' = { c with tasks := c.tasks ++ [(p, body p c.tasks.length)] }) ∨
    ∃ k p u n i s, c.tasks[k]? = some (p, .step u n) ∧ u c.state i = some s ∧
      c' = { state := s, tasks := c.tasks.set k (p, n c.state i) } := by
  obtain ⟨m, hm⟩ := h
  cases m
  case start p => exact .inl ⟨p, (Option.some.inj hm).symm⟩
  case run k i =>
    unfold move at hm
    dsimp only at hm
    split at hm
    case h_2 => cases hm
    case h_1 p u n hk =>
      obtain ⟨s, hs, he⟩ := Option.map_eq_some_iff.mp hm
      exact .inr ⟨k, p, u, n, i, s, hk, hs, he.symm⟩

section Guarantees

variable {R : Nat → Rely σ} {G : Nat → σ → σ → Prop} {P : Nat → σ → Prop}
variable {Q : π → Nat → Except ε α → σ → Prop}

-- What each call guarantees is what all other calls rely on, those to come included.
structure Rules (body : π → Nat → Routine σ ι ε α) (R : Nat → Rely σ) (G : Nat → σ → σ → Prop)
    (P : Nat → σ → Prop) (Q : π → Nat → Except ε α → σ → Prop) : Prop where
  compatible : ∀ {j k s s'}, G k s s' → j ≠ k → R j s s'
  keeps      : ∀ {k s s'}, R k s s' → P k s → P k s'
  runs       : ∀ {p k s}, P k s → (body p k).wp (R k) (G k) (Q p k) s

-- The calls do what they guarantee from here on, and so will the calls to come.
structure Good (R : Nat → Rely σ) (G : Nat → σ → σ → Prop) (P : Nat → σ → Prop)
    (Q : π → Nat → Except ε α → σ → Prop) (c : Calls π σ ι ε α) : Prop where
  running : ∀ k p (t : Routine σ ι ε α), c.tasks[k]? = some (p, t) → t.wp (R k) (G k) (Q p k) c.state
  toCome  : ∀ k, c.tasks.length ≤ k → P k c.state

theorem Good.init {s : σ} (h : ∀ k, P k s) : Good R G P Q (init s : Calls π σ ι ε α) where
  running  := by simp [Calls.init]
  toCome k _ := h k

-- Every step that changes the state is a step of a call within its guarantee.
theorem Good.step (hr : Rules body R G P Q) (hg : Good R G P Q c) (h : Step body c c') :
    Good R G P Q c' ∧ (c'.state = c.state ∨ ∃ k, G k c.state c'.state) := by
  obtain ⟨p, rfl⟩ | ⟨k, p, u, n, i, s, hk, hu, rfl⟩ := step_cases h
  case inl =>
    refine ⟨⟨fun k p' t hk => ?_, fun k hk => hg.toCome k ?_⟩, .inl rfl⟩
    · obtain hlt | rfl | hgt := lt_trichotomy k c.tasks.length
      · rw [List.getElem?_append_left hlt] at hk
        exact hg.running k p' t hk
      · rw [List.getElem?_concat_length] at hk
        cases hk
        exact hr.runs (hg.toCome _ le_rfl)
      · rw [List.getElem?_eq_none (by simp; omega)] at hk
        cases hk
    · simp only [List.length_append, List.length_singleton] at hk
      omega
  case inr =>
    have hlt : k < c.tasks.length := (List.getElem?_eq_some_iff.mp hk).1
    obtain ⟨hG, hn⟩ := hg.running k p _ hk c.state ((R k).refl _) i s hu
    refine ⟨⟨fun j p' t hj => ?_, fun j hj => ?_⟩, .inr ⟨k, hG⟩⟩
    · by_cases hjk : j = k
      case pos =>
        rw [hjk, List.getElem?_set_self hlt] at hj
        cases hj
        rw [hjk]
        exact hn
      case neg =>
        rw [List.getElem?_set_ne (Ne.symm hjk)] at hj
        exact Routine.wp_env (hg.running j p' t hj) (hr.compatible hG hjk)
    · rw [List.length_set] at hj
      exact hr.keeps (hr.compatible hG (by omega)) (hg.toCome j hj)

theorem Good.steps (hr : Rules body R G P Q) (hg : Good R G P Q c) (h : Steps body c c') :
    Good R G P Q c' := by
  induction h
  case refl        => exact hg
  case tail hs ih => exact (ih.step hr hs).left

theorem Good.rel {S : Rely σ} (hr : Rules body R G P Q) (hg : Good R G P Q c)
    (hS : ∀ {k s s'}, G k s s' → S s s') (h : Steps body c c') : S c.state c'.state := by
  induction h
  case refl => exact S.refl _
  case tail d d' hs hd ih =>
    obtain he | ⟨k, hG⟩ := ((hg.steps hr hs).step hr hd).right
    case inl => exact he ▸ ih
    case inr => exact S.trans ih (hS hG)

theorem Good.ended {k : Nat} {p : π} {r : Except ε α} (hg : Good R G P Q c) (h : c.Ended k p r) :
    Q p k r c.state :=
  hg.running k p _ h _ ((R k).refl _)

end Guarantees
end Calls
