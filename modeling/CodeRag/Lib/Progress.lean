import CodeRag.Lib.Routine

-- Calls that wait for something which one of them at a time can own, and which each of them asks for
-- once at most: they never all wait for each other.

universe u

namespace Routine

variable {σ ι ε α β : Type u} {t t' : Routine σ ι ε α} {k : α → Routine σ ι ε β}
variable {owner : σ → Option Nat} {upd : σ → ι → Option σ} {result : σ → ι → Except ε α}

-- The routine never waits.
def Total : Routine σ ι ε α → Prop
  | done _   => True
  | step u n => ∀ s i, (u s i).isSome ∧ (n s i).Total

-- The routine never waits, and the owner stays the same.
def Plain (owner : σ → Option Nat) : Routine σ ι ε α → Prop
  | done _   => True
  | step u n => ∀ s i, (∃ s', u s i = some s' ∧ owner s' = owner s) ∧ (n s i).Plain owner

-- The routine waits only for there to be no owner, and from then on it does not wait any more.
def Asks (owner : σ → Option Nat) : Routine σ ι ε α → Prop
  | done _   => True
  | step u n => ∀ s i, (owner s = none → (u s i).isSome) ∧
      ∀ s', u s i = some s' → (n s i).Total ∨ owner s' = owner s ∧ (n s i).Asks owner

theorem Total.bind (ht : t.Total) (hk : ∀ a, (k a).Total) : (t >>= k).Total := by
  induction t
  case done r =>
    cases r
    case ok a    => exact hk a
    case error e => exact trivial
  case step ih => exact fun s i => ⟨(ht s i).left, ih s i (ht s i).right⟩

theorem Total.attempt (ht : t.Total) : t.attempt.Total := by
  induction t
  case done    => exact trivial
  case step ih => exact fun s i => ⟨(ht s i).left, ih s i (ht s i).right⟩

theorem Total.act (h : ∀ s i, (upd s i).isSome) : (act upd result).Total :=
  fun s i => ⟨h s i, trivial⟩

theorem Total.andFinally {c : Routine σ ι ε PUnit} (ht : t.Total) (hc : c.Total) :
    (t.andFinally c).Total :=
  ht.attempt.bind fun _ => hc.bind fun _ => trivial

theorem Total.handle {h : ε → Routine σ ι ε α} (ht : t.Total) (hh : ∀ e, (h e).Total) :
    (t.handle h).Total := by
  refine ht.attempt.bind fun r => ?_
  cases r
  case ok a    => exact trivial
  case error e => exact hh e

theorem Plain.bind (ht : t.Plain owner) (hk : ∀ a, (k a).Plain owner) : (t >>= k).Plain owner := by
  induction t
  case done r =>
    cases r
    case ok a    => exact hk a
    case error e => exact trivial
  case step ih => exact fun s i => ⟨(ht s i).left, ih s i (ht s i).right⟩

theorem Plain.act (h : ∀ s i, ∃ s', upd s i = some s' ∧ owner s' = owner s) :
    (act upd result).Plain owner :=
  fun s i => ⟨h s i, trivial⟩

theorem Plain.bind_asks (ht : t.Plain owner) (hk : ∀ a, (k a).Asks owner) : (t >>= k).Asks owner := by
  induction t
  case done r =>
    cases r
    case ok a    => exact hk a
    case error e => exact trivial
  case step ih =>
    intro s i
    obtain ⟨⟨s', hu, ho⟩, hn⟩ := ht s i
    refine ⟨fun _ => Option.isSome_iff_exists.mpr ⟨s', hu⟩, fun s'' hu' => .inr ⟨?_, ih s i hn⟩⟩
    rw [←Option.some.inj (hu.symm.trans hu'), ho]

theorem Plain.asks (ht : t.Plain owner) : t.Asks owner := by
  induction t
  case done => exact trivial
  case step ih =>
    intro s i
    obtain ⟨⟨s', hu, ho⟩, hn⟩ := ht s i
    refine ⟨fun _ => Option.isSome_iff_exists.mpr ⟨s', hu⟩, fun s'' hu' => .inr ⟨?_, ih s i hn⟩⟩
    rw [←Option.some.inj (hu.symm.trans hu'), ho]

-- What follows the routine waits for nothing.
theorem Asks.bind (ht : t.Asks owner) (hk : ∀ a, (k a).Total ∧ (k a).Asks owner) :
    (t >>= k).Asks owner := by
  induction t
  case done r =>
    cases r
    case ok a    => exact (hk a).right
    case error e => exact trivial
  case step ih =>
    intro s i
    refine ⟨(ht s i).left, fun s' hu => ?_⟩
    obtain h | ⟨ho, h⟩ := (ht s i).right s' hu
    case inl => exact .inl (h.bind fun a => (hk a).left)
    case inr => exact .inr ⟨ho, ih s i h⟩

end Routine

namespace Calls

variable {π σ ι ε α : Type u} {body : π → Nat → Routine σ ι ε α} {c c' : Calls π σ ι ε α}
variable {owner : σ → Option Nat}

-- A call that may have to wait does not own what the calls wait for.
def Orderly (owner : σ → Option Nat) (c : Calls π σ ι ε α) : Prop :=
  ∀ k p (t : Routine σ ι ε α), c.tasks[k]? = some (p, t) →
    t.Total ∨ owner c.state ≠ some k ∧ t.Asks owner

section Ownership

variable {R : Nat → Rely σ} {G : Nat → σ → σ → Prop} {P : Nat → σ → Prop}
variable {Q : π → Nat → Except ε α → σ → Prop}

-- Only a call itself becomes the owner, and it is not when it begins and when it ends.
structure Owns (owner : σ → Option Nat) (body : π → Nat → Routine σ ι ε α) (R : Nat → Rely σ)
    (P : Nat → σ → Prop) (Q : π → Nat → Except ε α → σ → Prop) : Prop where
  asks   : ∀ p k, (body p k).Asks owner
  others : ∀ {k s s'}, R k s s' → owner s ≠ some k → owner s' ≠ some k
  begins : ∀ {k s}, P k s → owner s ≠ some k
  ends   : ∀ {p k r s}, Q p k r s → owner s ≠ some k

theorem Orderly.init {s : σ} : Orderly owner (Calls.init s : Calls π σ ι ε α) := by
  simp [Orderly, Calls.init]

theorem Orderly.step (hr : Rules body R G P Q) (ho : Owns owner body R P Q) (hg : Good R G P Q c)
    (h : Orderly owner c) (hs : Step body c c') : Orderly owner c' := by
  obtain ⟨p, rfl⟩ | ⟨k, p, u, n, i, s, hk, hu, rfl⟩ := step_cases hs
  case inl =>
    intro k p' t hk
    obtain hlt | rfl | hgt := lt_trichotomy k c.tasks.length
    · rw [List.getElem?_append_left hlt] at hk
      exact h k p' t hk
    · rw [List.getElem?_concat_length] at hk
      cases hk
      exact .inr ⟨ho.begins (hg.toCome _ le_rfl), ho.asks _ _⟩
    · rw [List.getElem?_eq_none (by simp; omega)] at hk
      cases hk
  case inr =>
    have hlt : k < c.tasks.length := (List.getElem?_eq_some_iff.mp hk).1
    obtain ⟨hG, _⟩ := hg.running k p _ hk c.state ((R k).refl _) i s hu
    intro j p' t hj
    by_cases hjk : j = k
    case pos =>
      rw [hjk, List.getElem?_set_self hlt] at hj
      cases hj
      rw [hjk]
      obtain ht | ⟨hn, ht⟩ := h k _ _ hk
      · exact .inl (ht _ _).right
      · obtain ht | ⟨hs, ht⟩ := (ht _ _).right s hu
        · exact .inl ht
        · exact .inr ⟨fun he => hn (hs.symm.trans he), ht⟩
    case neg =>
      rw [List.getElem?_set_ne (Ne.symm hjk)] at hj
      obtain ht | ⟨hn, ht⟩ := h j p' t hj
      · exact .inl ht
      · exact .inr ⟨ho.others (hr.compatible hG hjk) hn, ht⟩

theorem Orderly.steps (hr : Rules body R G P Q) (ho : Owns owner body R P Q) (hg : Good R G P Q c)
    (h : Orderly owner c) (hs : Steps body c c') : Orderly owner c' := by
  induction hs
  case refl          => exact h
  case tail hs h' ih => exact ih.step hr ho (hg.steps hr hs) h'

end Ownership
end Calls
