import CodeRag.Lib.StateM

-- Cooperative tasks over a shared state. A task is either done, or it performs one atomic step and
-- continues. Between two steps a scheduler may run other tasks, so a task's next step starts in a
-- state that the others may have changed.

universe u

inductive Coroutine (σ ε α : Type u) : Type u
  | done (r : Except ε α)
  | step (upd : σ → σ) (next : σ → Coroutine σ ε α)

namespace Coroutine

variable {σ ε α β : Type u}

protected def bind : Coroutine σ ε α → (α → Coroutine σ ε β) → Coroutine σ ε β
  | done (.ok a), k    => k a
  | done (.error e), _ => done (.error e)
  | step u n, k        => step u fun s => (n s).bind k

instance : Monad (Coroutine σ ε) where
  pure a := done (.ok a)
  bind   := Coroutine.bind

-- Performs `c` in one atomic step.
def call (c : EStateM ε σ α) : Coroutine σ ε α :=
  step (fun s => (c s).state) (fun s => done (c s).outcome)

def throw (e : ε) : Coroutine σ ε α :=
  done (.error e)

-- Runs a task alone, without any other task in between.
def run : Coroutine σ ε α → EStateM ε σ α
  | done (.ok a), s    => .ok a s
  | done (.error e), s => .error e s
  | step u n, s        => (n s).run (u s)

@[simp]
theorem pure_eq {a : α} : (pure a : Coroutine σ ε α) = done (.ok a) :=
  rfl

@[simp]
theorem bind_done_ok {a : α} {k : α → Coroutine σ ε β} : (done (.ok a) : Coroutine σ ε α) >>= k = k a :=
  rfl

@[simp]
theorem bind_done_error {e : ε} {k : α → Coroutine σ ε β} :
    (done (.error e) : Coroutine σ ε α) >>= k = done (.error e) :=
  rfl

@[simp]
theorem bind_step {u : σ → σ} {n : σ → Coroutine σ ε α} {k : α → Coroutine σ ε β} :
    step u n >>= k = step u fun s => n s >>= k :=
  rfl

@[simp]
theorem run_call {c : EStateM ε σ α} : (call c).run = c := by
  funext s
  simp only [call, run]
  cases c s <;> rfl

theorem run_bind {t : Coroutine σ ε α} {k : α → Coroutine σ ε β} :
    (t >>= k).run = t.run >>= fun a => (k a).run := by
  funext s
  induction t generalizing s
  case done r      => cases r <;> rfl
  case step u n ih => exact ih s (u s)

end Coroutine

namespace Coroutine

variable {σ ε α β : Type u} {R : Rely σ} {G : σ → σ → Prop} {t : Coroutine σ ε α}
variable {Q Q' : Except ε α → σ → Prop} {s s' : σ}

-- `wp R G t Q s`: whenever the environment of `t` acts within `R` from `s` on, every step of `t` is
-- within `G`, and `Q` holds of the outcome of `t` and of every state from then on.
def wp (R : Rely σ) (G : σ → σ → Prop) : Coroutine σ ε α → (Except ε α → σ → Prop) → σ → Prop
  | done r, Q, s   => ∀ s', R s s' → Q r s'
  | step u n, Q, s => ∀ s', R s s' → G s' (u s') ∧ wp R G (n s') Q (u s')

theorem wp_env (h : t.wp R G Q s) (hs : R s s') : t.wp R G Q s' := by
  cases t
  case done => exact fun s'' hs' => h s'' (R.trans hs hs')
  case step => exact fun s'' hs' => h s'' (R.trans hs hs')

theorem wp_mono (h : t.wp R G Q s) (hq : ∀ r s', Q r s' → Q' r s') : t.wp R G Q' s := by
  induction t generalizing s
  case done      => exact fun s' hs => hq _ _ (h s' hs)
  case step n ih => exact fun s' hs => ⟨(h s' hs).left, ih s' (h s' hs).right⟩

theorem wp_done {r : Except ε α} (h : ∀ s', R s s' → Q r s') :
    (done r : Coroutine σ ε α).wp R G Q s :=
  h

-- The postcondition of the first part of a sequence is what the second part needs.
theorem wp_bind {k : α → Coroutine σ ε β} {Q : Except ε β → σ → Prop} {P : α → σ → Prop}
    (h : t.wp R G (fun r s => match r with | .ok a => P a s | .error e => Q (.error e) s) s)
    (hk : ∀ a s, P a s → (k a).wp R G Q s) : (t >>= k).wp R G Q s := by
  induction t generalizing s
  case done r =>
    cases r
    case ok a    => exact hk _ _ (h s (R.refl s))
    case error e => exact fun s' hs => h s' hs
  case step n ih => exact fun s' hs => ⟨(h s' hs).left, ih s' (h s' hs).right⟩

theorem wp_call {c : EStateM ε σ α} (h : ∀ s', R s s' → G s' (c s').state ∧
    ∀ s'', R (c s').state s'' → Q (c s').outcome s'') : (call c).wp R G Q s :=
  fun s' hs => h s' hs

theorem wp_run (h : t.wp R G Q s) : Q (t.run s).outcome (t.run s).state := by
  induction t generalizing s
  case done r    => cases r <;> exact h s (R.refl s)
  case step n ih => exact ih s (h s (R.refl s)).right

section Mirrors

variable {E : σ → σ → Prop} {s₀ : σ}

-- `t.mirrors R G E s s₀`: when its environment acts within `R` from `s` on, `t` does what it does
-- alone from `s₀` on, and the states it leaves correspond by `E`.
def mirrors (R : Rely σ) (G E : σ → σ → Prop) (t : Coroutine σ ε α) (s s₀ : σ) : Prop :=
  t.wp R G (fun r s' => r = (t.run s₀).outcome ∧ E s' (t.run s₀).state) s

variable (hE : ∀ s s' s₀, R s s' → E s s₀ → E s' s₀)

include hE

theorem mirrors_done {r : Except ε α} (h : E s s₀) : (done r).mirrors R G E s s₀ := by
  intro s' hs
  have he := hE _ _ _ hs h
  cases r <;> exact ⟨rfl, he⟩

theorem mirrors_call {c : EStateM ε σ α} (h : E s s₀)
    (hc : ∀ s', E s' s₀ → G s' (c s').state ∧ (c s').outcome = (c s₀).outcome ∧
      E (c s').state (c s₀).state) : (call c).mirrors R G E s s₀ := by
  refine wp_call fun s' hs => ?_
  obtain ⟨hg, ho, he⟩ := hc s' (hE _ _ _ hs h)
  rw [run_call]
  exact ⟨hg, fun s'' hs' => ⟨ho, hE _ _ _ hs' he⟩⟩

omit hE in
theorem mirrors_mono {E' : σ → σ → Prop} (h : t.mirrors R G E s s₀)
    (he : ∀ s', E s' (t.run s₀).state → E' s' (t.run s₀).state) : t.mirrors R G E' s s₀ :=
  wp_mono h fun _ s' hs => ⟨hs.left, he s' hs.right⟩

omit hE in
theorem mirrors_bind {k : α → Coroutine σ ε β} (ht : t.mirrors R G E s s₀)
    (hk : ∀ a s' s₀', t.run s₀ = .ok a s₀' → E s' s₀' → (k a).mirrors R G E s' s₀') :
    (t >>= k).mirrors R G E s s₀ := by
  unfold mirrors at ht ⊢
  cases hr : t.run s₀ <;> rw [hr] at ht
  case ok a s₀' =>
    have hrun : (t >>= k).run s₀ = (k a).run s₀' := by rw [run_bind, EStateM.bind_of_ok hr]
    rw [hrun]
    refine wp_bind (P := fun b s' => b = a ∧ E s' s₀') (wp_mono ht ?_) ?_
    · rintro _ s' ⟨rfl, he⟩
      exact ⟨rfl, he⟩
    · rintro _ s' ⟨rfl, he⟩
      exact hk _ _ _ hr he
  case error e s₀' =>
    have hrun : (t >>= k).run s₀ = .error e s₀' := by rw [run_bind, EStateM.bind_of_error hr]
    rw [hrun]
    refine wp_bind (P := fun _ _ => False) (wp_mono ht ?_) fun _ _ h => h.elim
    rintro _ s' ⟨rfl, he⟩
    exact ⟨rfl, he⟩

end Mirrors

section Yields

variable {P : α → Prop} {P' : β → Prop}

-- Whatever states a task meets, what it returns has a property.
def Yields (P : α → Prop) : Coroutine σ ε α → Prop
  | done (.ok a)    => P a
  | done (.error _) => True
  | step _ n        => ∀ s, Yields P (n s)

theorem yields_true : t.Yields fun _ => True := by
  induction t
  case done r  => cases r <;> exact trivial
  case step ih => exact ih

theorem Yields.bind {k : α → Coroutine σ ε β} (h : t.Yields P) (hk : ∀ a, P a → (k a).Yields P') :
    (t >>= k).Yields P' := by
  induction t
  case done r      =>
    cases r
    case ok a  => exact hk a h
    case error => exact trivial
  case step u n ih => exact fun s => ih s (h s)

theorem Yields.run {a : α} (h : t.Yields P) (hr : t.run s = .ok a s') : P a := by
  induction t generalizing s
  case done r      =>
    cases r <;> cases hr
    exact h
  case step u n ih => exact ih s (h s) hr

end Yields

end Coroutine
