import CodeRag.Lib.Action
import CodeRag.Lib.Table

-- Updates of a table, one after the other. They all succeed iff none of them puts two rows at the same
-- key.

namespace Table

variable {ρ κ : Type*} [Keyed ρ κ] [DecidableEq κ] {α : Type*} {f : α → ρ → ρ} {t t' : Table ρ}
variable {a : α} {l : List α} {r : ρ}

-- What has become of a row after the updates.
def after (f : α → ρ → ρ) (l : List α) (r : ρ) : ρ :=
  l.foldl (fun r a => f a r) r

-- However many of the updates are made, all rows have different keys.
def Free (f : α → ρ → ρ) (l : List α) (t : Table ρ) : Prop :=
  ∀ done, done <+: l → ∀ r ∈ t, ∀ r' ∈ t, key (after f done r) = key (after f done r') → r = r'

omit [DecidableEq κ] in
theorem free_nil : t.Free f [] := by
  rintro done hd r hr r' hr' hk
  rw [List.prefix_nil.mp hd] at hk
  exact eq_of_key_eq hr hr' hk

theorem free_cons : t.Free f (a :: l) ↔ ∃ t', t.update (f a) = some t' ∧ t'.Free f l := by
  constructor
  case mp =>
    intro h
    have hs : (t.update (f a)).isSome :=
      update_isSome_iff.mpr fun r hr r' hr' => h [a] (by simp) r hr r' hr'
    obtain ⟨t', ht⟩ := Option.isSome_iff_exists.mp hs
    refine ⟨t', ht, fun done hd r hr r' hr' hk => ?_⟩
    obtain ⟨s, hs, rfl⟩ := (mem_update ht).mp hr
    obtain ⟨s', hs', rfl⟩ := (mem_update ht).mp hr'
    rw [h (a :: done) (List.cons_prefix_cons.mpr ⟨rfl, hd⟩) s hs s' hs' hk]
  case mpr =>
    rintro ⟨t', ht, h⟩ done hd r hr r' hr' hk
    cases done
    case nil => exact eq_of_key_eq hr hr' hk
    case cons b done =>
      obtain ⟨rfl, hd'⟩ := List.cons_prefix_cons.mp hd
      have hm := (update_bijOn ht).mapsTo
      exact (update_bijOn ht).injOn hr hr' (h done hd' _ (hm hr) _ (hm hr') hk)

end Table
