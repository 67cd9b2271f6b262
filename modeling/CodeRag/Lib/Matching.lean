import Mathlib

-- Matchings between two kinds of things that have classes, where things match when their classes are
-- the same. A matching that cannot be extended is as large as any other.

universe u v w

-- A one-to-one assignment of things of `A` to things of `B` that have the same class.
structure Matching {α : Type u} {β : Type v} {γ : Type w} (A : Set α) (B : Set β) (f : α → γ)
    (g : β → γ) (M : Finset (α × β)) : Prop where
  left  : ∀ p ∈ M, p.1 ∈ A
  right : ∀ p ∈ M, p.2 ∈ B
  same  : ∀ p ∈ M, f p.1 = g p.2
  fst   : ∀ p ∈ M, ∀ q ∈ M, p.1 = q.1 → p = q
  snd   : ∀ p ∈ M, ∀ q ∈ M, p.2 = q.2 → p = q

namespace Matching

variable {α : Type u} {β : Type v} {γ : Type w} {A : Set α} {B : Set β} {f : α → γ} {g : β → γ}
variable {M M' : Finset (α × β)}

-- No two things of the same class are left over.
def Maximal (A : Set α) (B : Set β) (f : α → γ) (g : β → γ) (M : Finset (α × β)) : Prop :=
  ∀ a ∈ A, ∀ b ∈ B, f a = g b → (∃ p ∈ M, p.1 = a) ∨ ∃ p ∈ M, p.2 = b

open Classical in
-- Within a class, either all things on the left or all things on the right are matched.
private theorem card_class_le (hM : Matching A B f g M) (hmax : Maximal A B f g M)
    (hM' : Matching A B f g M') (c : γ) :
    (M'.filter fun p => f p.1 = c).card ≤ (M.filter fun p => f p.1 = c).card := by
  by_cases hl : ∀ a ∈ A, f a = c → ∃ p ∈ M, p.1 = a
  case pos =>
    have hsub : (M'.filter fun p => f p.1 = c).image Prod.fst ⊆
        (M.filter fun p => f p.1 = c).image Prod.fst := by
      intro a ha
      obtain ⟨p, hp, rfl⟩ := Finset.mem_image.mp ha
      have ⟨hp, hc⟩ := Finset.mem_filter.mp hp
      have ⟨q, hq, he⟩ := hl p.1 (hM'.left p hp) hc
      exact Finset.mem_image.mpr ⟨q, Finset.mem_filter.mpr ⟨hq, he ▸ hc⟩, he⟩
    have hinj : Set.InjOn Prod.fst (M'.filter fun p => f p.1 = c : Set (α × β)) :=
      fun p hp q hq he => hM'.fst p (Finset.mem_filter.mp hp).left q (Finset.mem_filter.mp hq).left he
    rw [←Finset.card_image_of_injOn hinj]
    exact (Finset.card_le_card hsub).trans Finset.card_image_le
  case neg =>
    push Not at hl
    have ⟨a, ha, hac, hfree⟩ := hl
    have hr : ∀ b ∈ B, g b = c → ∃ p ∈ M, p.2 = b := fun b hb hbc =>
      (hmax a ha b hb (hac.trans hbc.symm)).resolve_left fun ⟨p, hp, he⟩ => hfree p hp he
    have hsub : (M'.filter fun p => f p.1 = c).image Prod.snd ⊆
        (M.filter fun p => f p.1 = c).image Prod.snd := by
      intro b hb
      obtain ⟨p, hp, rfl⟩ := Finset.mem_image.mp hb
      have ⟨hp, hc⟩ := Finset.mem_filter.mp hp
      have ⟨q, hq, he⟩ := hr p.2 (hM'.right p hp) ((hM'.same p hp).symm.trans hc)
      have hqc : f q.1 = c := by rw [hM.same q hq, he, ←hM'.same p hp, hc]
      exact Finset.mem_image.mpr ⟨q, Finset.mem_filter.mpr ⟨hq, hqc⟩, he⟩
    have hinj : Set.InjOn Prod.snd (M'.filter fun p => f p.1 = c : Set (α × β)) :=
      fun p hp q hq he => hM'.snd p (Finset.mem_filter.mp hp).left q (Finset.mem_filter.mp hq).left he
    rw [←Finset.card_image_of_injOn hinj]
    exact (Finset.card_le_card hsub).trans Finset.card_image_le

open Classical in
theorem card_le_of_maximal (hM : Matching A B f g M) (hmax : Maximal A B f g M)
    (hM' : Matching A B f g M') : M'.card ≤ M.card := by
  have hs : ∀ N : Finset (α × β), N ⊆ M ∪ M' →
      N.card = ∑ c ∈ (M ∪ M').image (fun p => f p.1), (N.filter fun p => f p.1 = c).card :=
    fun N hN => Finset.card_eq_sum_card_fiberwise
      fun p hp => Finset.mem_image_of_mem (fun p => f p.1) (hN hp)
  rw [hs M Finset.subset_union_left, hs M' Finset.subset_union_right]
  exact Finset.sum_le_sum fun c _ => card_class_le hM hmax hM' c

end Matching
