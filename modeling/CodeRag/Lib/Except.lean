import Mathlib

-- Sequences of computations that may fail.

universe u v

variable {ε α β : Type u}

namespace Except

theorem bind_ok_iff {x : Except ε α} {f : α → Except ε β} {b : β} :
    x >>= f = .ok b ↔ ∃ a, x = .ok a ∧ f a = .ok b := by
  cases x
  case error e => exact ⟨nofun, fun ⟨_, h, _⟩ => nomatch h⟩
  case ok a    => exact ⟨fun h => ⟨a, rfl, h⟩, fun ⟨_, h, hf⟩ => by cases h; exact hf⟩

theorem ok_injective : Function.Injective (Except.ok : α → Except ε α) :=
  fun _ _ => Except.ok.inj

end Except

namespace List

variable {f : α → Except ε β} {as : List α} {bs : List β}

theorem mapM_ok_iff : as.mapM f = .ok bs ↔ as.map f = bs.map .ok := by
  induction as generalizing bs
  case nil =>
    rw [mapM_nil, map_nil, eq_comm (a := []), map_eq_nil_iff, eq_comm]
    exact Except.ok_injective.eq_iff
  case cons a as ih =>
    rw [mapM_cons, map_cons, Except.bind_ok_iff]
    constructor
    case mp =>
      rintro ⟨b, hb, h⟩
      obtain ⟨bs', hbs, ⟨⟩⟩ := Except.bind_ok_iff.mp h
      rw [hb, ih.mp hbs, map_cons]
    case mpr =>
      cases bs
      case nil         => nofun
      case cons b bs =>
        intro h
        rw [map_cons, cons.injEq] at h
        exact ⟨b, h.left, Except.bind_ok_iff.mpr ⟨bs, ih.mpr h.right, rfl⟩⟩

theorem exists_mapM_ok_iff : (∃ bs, as.mapM f = .ok bs) ↔ ∀ a ∈ as, ∃ b, f a = .ok b := by
  constructor
  case mp =>
    rintro ⟨bs, h⟩ a ha
    have hm : f a ∈ bs.map Except.ok := mapM_ok_iff.mp h ▸ mem_map_of_mem ha
    obtain ⟨b, _, hb⟩ := mem_map.mp hm
    exact ⟨b, hb.symm⟩
  case mpr =>
    intro h
    induction as
    case nil => exact ⟨[], rfl⟩
    case cons a as ih =>
      rw [forall_mem_cons] at h
      obtain ⟨⟨b, hb⟩, has⟩ := h
      obtain ⟨bs, hbs⟩ := ih has
      refine ⟨b :: bs, mapM_ok_iff.mpr ?_⟩
      rw [map_cons, map_cons, hb, mapM_ok_iff.mp hbs]

end List
