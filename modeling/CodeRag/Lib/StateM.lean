import Mathlib

-- Computations on a state that may fail, and rules for what they do to the state.

universe u

namespace EStateM.Result

variable {ε σ α : Type u}

def outcome : Result ε σ α → Except ε α
  | ok a _    => .ok a
  | error e _ => .error e

def state : Result ε σ α → σ
  | ok _ s | error _ s => s

def mapState (f : σ → σ) : Result ε σ α → Result ε σ α
  | ok a s    => ok a (f s)
  | error e s => error e (f s)

@[simp] theorem mapState_ok {f : σ → σ} {a : α} {s : σ} :
    (ok a s : Result ε σ α).mapState f = ok a (f s) := rfl

@[simp] theorem mapState_error {f : σ → σ} {e : ε} {s : σ} :
    (error e s : Result ε σ α).mapState f = error e (f s) := rfl

@[simp] theorem outcome_ok {a : α} {s : σ} : (ok a s : Result ε σ α).outcome = .ok a := rfl

@[simp] theorem outcome_error {e : ε} {s : σ} : (error e s : Result ε σ α).outcome = .error e := rfl

@[simp] theorem state_ok {a : α} {s : σ} : (ok a s : Result ε σ α).state = s := rfl

@[simp] theorem state_error {e : ε} {s : σ} : (error e s : Result ε σ α).state = s := rfl

end EStateM.Result

namespace EStateM

variable {ε σ α β : Type u} {x : EStateM ε σ α} {s s' : σ} {a : α} {e : ε}

theorem bind_of_ok {f : α → EStateM ε σ β} (h : x s = .ok a s') : (x >>= f) s = f a s' := by
  simp only [bind, EStateM.bind, h]

theorem bind_of_error {f : α → EStateM ε σ β} (h : x s = .error e s') :
    (x >>= f) s = .error e s' := by
  simp only [bind, EStateM.bind, h]

theorem tryCatch_of_ok {f : ε → EStateM ε σ α} (h : x s = .ok a s') :
    (tryCatch x f) s = .ok a s' := by
  simp only [tryCatch, tryCatchThe, MonadExceptOf.tryCatch, EStateM.tryCatch, h]

theorem tryCatch_of_error {f : ε → EStateM ε σ α} (h : x s = .error e s') :
    (tryCatch x f) s = f e s' := by
  simp only [tryCatch, tryCatchThe, MonadExceptOf.tryCatch, EStateM.tryCatch, h]
  rfl

@[simp]
theorem pure_apply : (pure a : EStateM ε σ α) s = .ok a s :=
  rfl

@[simp]
theorem throw_apply : (throw e : EStateM ε σ α) s = .error e s :=
  rfl

@[simp]
theorem get_bind {f : σ → EStateM ε σ β} : (get >>= f) s = f s s :=
  rfl

@[simp]
theorem modify_apply {f : σ → σ} : (modify f : EStateM ε σ PUnit) s = .ok ⟨⟩ (f s) :=
  rfl

theorem eq_ok_of_outcome (h : (x s).outcome = .ok a) : x s = .ok a (x s).state := by
  cases hx : x s <;> rw [hx] at h <;> cases h
  rfl

-- What a sequence of two computations can do.
theorem bind_cases {f : α → EStateM ε σ β} {r : Result ε σ β} (h : (x >>= f) s = r) :
    (∃ a s', x s = .ok a s' ∧ f a s' = r) ∨ (∃ e s', x s = .error e s' ∧ r = .error e s') := by
  cases hx : x s
  case ok a s'    => exact .inl ⟨a, s', rfl, (bind_of_ok hx).symm.trans h⟩
  case error e s' => exact .inr ⟨e, s', rfl, h.symm.trans (bind_of_error hx)⟩

end EStateM

-- A relation between the state before and the state after a stretch of a run.
structure Rely (σ : Type u) where
  rel   : σ → σ → Prop
  refl  : ∀ s, rel s s
  trans : ∀ {s₁ s₂ s₃}, rel s₁ s₂ → rel s₂ s₃ → rel s₁ s₃

namespace Rely

variable {σ : Type u}

instance : CoeFun (Rely σ) (fun _ => σ → σ → Prop) where
  coe := rel

-- The environment keeps the invariant `I`.
def keeps (I : σ → Prop) : Rely σ where
  rel s s' := I s → I s'
  refl _ h := h
  trans h₁ h₂ h := h₂ (h₁ h)

-- Nothing happens.
def still : Rely σ where
  rel s s' := s' = s
  refl _   := rfl
  trans    := by rintro _ _ _ rfl rfl; rfl

-- What happens to the part `f` of the state.
def comap {τ : Type u} (f : σ → τ) (R : Rely τ) : Rely σ where
  rel s s' := R.rel (f s) (f s')
  refl s   := R.refl (f s)
  trans    := R.trans

def inter (R₁ R₂ : Rely σ) : Rely σ where
  rel s s' := R₁ s s' ∧ R₂ s s'
  refl s := ⟨R₁.refl s, R₂.refl s⟩
  trans h₁ h₂ := ⟨R₁.trans h₁.left h₂.left, R₂.trans h₁.right h₂.right⟩

end Rely

namespace EStateM

variable {ε σ α β : Type u} {x : EStateM ε σ α} {s s' : σ} {S : Rely σ}
variable {Q Q' : Except ε α → σ → Prop}

-- However `x` ends, it changes the state within `S`.
def Within (S : Rely σ) (x : EStateM ε σ α) : Prop :=
  ∀ s, S s (x s).state

theorem Within.pure {a : α} : (pure a : EStateM ε σ α).Within S :=
  S.refl

theorem Within.throw {e : ε} : (throw e : EStateM ε σ α).Within S :=
  S.refl

theorem Within.get : (get : EStateM ε σ σ).Within S :=
  S.refl

theorem Within.bind {f : α → EStateM ε σ β} (hx : x.Within S) (hf : ∀ a, (f a).Within S) :
    (x >>= f).Within S := by
  intro s
  have hs := hx s
  cases h : x s <;> rw [h] at hs
  case ok a s'    => rw [bind_of_ok h]; exact S.trans hs (hf a s')
  case error e s' => rw [bind_of_error h]; exact hs

theorem Within.tryCatch {f : ε → EStateM ε σ α} (hx : x.Within S) (hf : ∀ e, (f e).Within S) :
    (tryCatch x f).Within S := by
  intro s
  have hs := hx s
  cases h : x s <;> rw [h] at hs
  case ok a s'    => rw [tryCatch_of_ok h]; exact hs
  case error e s' => rw [tryCatch_of_error h]; exact S.trans hs (hf e s')

theorem Within.forM {f : α → EStateM ε σ PUnit} (hf : ∀ a, (f a).Within S) (l : List α) :
    (l.forM f).Within S := by
  induction l
  case nil          => exact .pure
  case cons a l ih => exact .bind (hf a) fun _ => ih

-- `x.post Q s`: run from `s`, `x` ends with an outcome and a state that satisfy `Q`.
def post (x : EStateM ε σ α) (Q : Except ε α → σ → Prop) (s : σ) : Prop :=
  Q (x s).outcome (x s).state

theorem post_of_ok {a : α} (h : x s = .ok a s') (hq : Q (.ok a) s') : x.post Q s := by
  rwa [post, h]

theorem post_of_error {e : ε} (h : x s = .error e s') (hq : Q (.error e) s') : x.post Q s := by
  rwa [post, h]

theorem not_ok {e : ε} {a : α} {P : Prop} : (Except.error e : Except ε α) = .ok a → P :=
  nofun

theorem not_error {a : α} {e : ε} {P : Prop} : (Except.ok a : Except ε α) = .error e → P :=
  nofun

theorem post_mono (h : x.post Q s) (hq : ∀ r s', Q r s' → Q' r s') : x.post Q' s :=
  hq _ _ h

theorem post_and {P : Except ε α → σ → Prop} (hp : x.post P s) (hq : x.post Q s) :
    x.post (fun r s => P r s ∧ Q r s) s :=
  ⟨hp, hq⟩

theorem Within.post (h : x.Within S) : x.post (fun _ s' => S s s') s :=
  h s

theorem post_pure {a : α} (h : Q (.ok a) s) : (pure a : EStateM ε σ α).post Q s :=
  h

theorem post_throw {e : ε} (h : Q (.error e) s) : (throw e : EStateM ε σ α).post Q s :=
  h

-- The postcondition of the first part of a sequence is what the second part needs.
theorem post_bind {f : α → EStateM ε σ β} {P : Except ε α → σ → Prop} {Q : Except ε β → σ → Prop}
    (hx : x.post P s) (ok : ∀ a s', P (.ok a) s' → (f a).post Q s')
    (error : ∀ e s', P (.error e) s' → Q (.error e) s') : (x >>= f).post Q s := by
  unfold EStateM.post at hx ⊢
  cases h : x s <;> rw [h] at hx
  case ok a s'    => rw [bind_of_ok h]; exact ok a s' hx
  case error e s' => rw [bind_of_error h]; exact error e s' hx

theorem post_get {f : σ → EStateM ε σ β} {Q : Except ε β → σ → Prop} (h : (f s).post Q s) :
    (get >>= f).post Q s :=
  h

theorem post_tryCatch {f : ε → EStateM ε σ α} {P : Except ε α → σ → Prop} (hx : x.post P s)
    (ok : ∀ a s', P (.ok a) s' → Q (.ok a) s') (error : ∀ e s', P (.error e) s' → (f e).post Q s') :
    (tryCatch x f).post Q s := by
  unfold EStateM.post at hx ⊢
  cases h : x s <;> rw [h] at hx
  case ok a s'    => rw [tryCatch_of_ok h]; exact ok a s' hx
  case error e s' => rw [tryCatch_of_error h]; exact error e s' hx

end EStateM
