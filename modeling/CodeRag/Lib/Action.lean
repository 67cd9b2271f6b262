import Mathlib

-- The elements of a list act on a state one after the other. An action need not be possible in every
-- state.

universe u v

namespace Action

variable {α : Type u} {σ : Type v} {R S : α → σ → σ → Prop} {I : σ → Prop} {l l' : List α}
variable {s s₁ s₂ : σ}

def Run (R : α → σ → σ → Prop) : List α → σ → σ → Prop
  | [], s, s'     => s' = s
  | a :: l, s, s' => ∃ s₁, R a s s₁ ∧ Run R l s₁ s'

theorem Run.unique (hu : ∀ a ∈ l, ∀ s s₁ s₂, R a s s₁ → R a s s₂ → s₁ = s₂) (h₁ : Run R l s s₁)
    (h₂ : Run R l s s₂) : s₁ = s₂ := by
  induction l generalizing s
  case nil => exact h₁.trans h₂.symm
  case cons a l ih =>
    obtain ⟨t₁, ha₁, h₁⟩ := h₁
    obtain ⟨t₂, ha₂, h₂⟩ := h₂
    obtain rfl := hu a (.head _) s t₁ t₂ ha₁ ha₂
    exact ih (fun b hb => hu b (.tail _ hb)) h₁ h₂

-- An invariant of the single actions holds in all states of a run.
theorem Run.imp (hi : ∀ a ∈ l, ∀ s s', I s → R a s s' → S a s s' ∧ I s') (hs : I s)
    (h : Run R l s s₁) : Run S l s s₁ ∧ I s₁ := by
  induction l generalizing s
  case nil => cases h; exact ⟨rfl, hs⟩
  case cons a l ih =>
    obtain ⟨t, ha, h⟩ := h
    obtain ⟨hS, ht⟩ := hi a (.head _) s t hs ha
    obtain ⟨hrun, hs₁⟩ := ih (fun b hb => hi b (.tail _ hb)) ht h
    exact ⟨⟨t, hS, hrun⟩, hs₁⟩

-- Two different actions can be exchanged.
def Commutes (R : α → σ → σ → Prop) (a b : α) : Prop :=
  ∀ s s₁ s₂, R a s s₁ → R b s₁ s₂ → ∃ s₁', R b s s₁' ∧ R a s₁' s₂

theorem Run.perm (hp : l.Perm l') (hc : ∀ a ∈ l, ∀ b ∈ l, a ≠ b → Commutes R a b)
    (h : Run R l s s₂) : Run R l' s s₂ := by
  induction hp generalizing s
  case nil => exact h
  case cons a l l' _ ih =>
    obtain ⟨t, ha, h⟩ := h
    exact ⟨t, ha, ih (fun b hb c hc' => hc b (.tail _ hb) c (.tail _ hc')) h⟩
  case swap a b l =>
    obtain ⟨t, hb, t', ha, h⟩ := h
    by_cases he : b = a
    case pos => exact he ▸ ⟨t, hb, t', he ▸ ha, h⟩
    case neg =>
      obtain ⟨u, ha', hb'⟩ := hc b (.head _) a (.tail _ (.head _)) he s t t' hb ha
      exact ⟨u, ha', t', hb', h⟩
  case trans l₁ l₂ l₃ h₁ _ ih₁ ih₂ =>
    exact ih₂ (fun a ha b hb => hc a (h₁.mem_iff.mpr ha) b (h₁.mem_iff.mpr hb)) (ih₁ hc h)

end Action
