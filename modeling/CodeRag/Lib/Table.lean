import Mathlib

-- A relational table with a primary key: a list of rows no two of which share a key. The row order
-- is kept, as a query without ORDER BY may list the rows in any order.

class Keyed (ρ : Type*) (κ : outParam Type*) where
  key : ρ → κ

export Keyed (key)

structure Table (ρ : Type*) {κ : Type*} [Keyed ρ κ] where
  rows  : List ρ
  nodup : (rows.map key).Nodup

namespace Table

variable {ρ κ : Type*} [Keyed ρ κ] [DecidableEq κ] {t t₁ t₂ : Table ρ} {r r' : ρ} {k : κ}

instance : Membership ρ (Table ρ) where
  mem t r := r ∈ t.rows

omit [DecidableEq κ] in
theorem mem_rows : r ∈ t.rows ↔ r ∈ t :=
  Iff.rfl

omit [DecidableEq κ] in
theorem eq_of_key_eq (h : r ∈ t) (h' : r' ∈ t) (hk : key r = key r') : r = r' :=
  List.inj_on_of_nodup_map t.nodup h h' hk

def empty : Table ρ where
  rows  := []
  nodup := by simp

omit [DecidableEq κ] in
@[simp]
theorem not_mem_empty : r ∉ (empty : Table ρ) :=
  List.not_mem_nil

-- SELECT * WHERE key = k
def find? (t : Table ρ) (k : κ) : Option ρ :=
  t.rows.find? (key · = k)

theorem find?_eq_some_iff : t.find? k = some r ↔ r ∈ t ∧ key r = k := by
  constructor
  case mp =>
    intro h
    exact ⟨List.mem_of_find?_eq_some h, by simpa using List.find?_some h⟩
  case mpr =>
    intro ⟨hm, hk⟩
    cases h : t.find? k
    case none => exact absurd hk (by simpa using List.find?_eq_none.mp h r hm)
    case some r' =>
      have hk' : key r' = k := by simpa using List.find?_some h
      rw [eq_of_key_eq (List.mem_of_find?_eq_some h) hm (hk'.trans hk.symm)]

theorem find?_eq_none_iff : t.find? k = none ↔ ∀ r ∈ t, key r ≠ k := by
  simp [find?, mem_rows]

theorem find?_of_mem (h : r ∈ t) : t.find? (key r) = some r :=
  find?_eq_some_iff.mpr ⟨h, rfl⟩

theorem mem_of_find? (h : t.find? k = some r) : r ∈ t :=
  (find?_eq_some_iff.mp h).left

theorem key_of_find? (h : t.find? k = some r) : key r = k :=
  (find?_eq_some_iff.mp h).right

theorem find?_isSome_iff : (t.find? k).isSome ↔ ∃ r ∈ t, key r = k := by
  simp [Option.isSome_iff_exists, find?_eq_some_iff]

@[simp]
theorem find?_empty : (empty : Table ρ).find? k = none :=
  rfl

-- Two tables hold the same rows iff every lookup gives the same answer.
theorem mem_iff_of_find?_eq (h : ∀ k, t₁.find? k = t₂.find? k) : r ∈ t₁ ↔ r ∈ t₂ := by
  constructor <;> intro hm
  case mp  => exact mem_of_find? (h _ ▸ find?_of_mem hm)
  case mpr => exact mem_of_find? ((h _).symm ▸ find?_of_mem hm)

theorem find?_eq_of_mem_iff (h : ∀ r, r ∈ t₁ ↔ r ∈ t₂) (k : κ) : t₁.find? k = t₂.find? k := by
  ext r
  simp [find?_eq_some_iff, h]

-- DELETE WHERE p
def delete (t : Table ρ) (p : ρ → Bool) : Table ρ where
  rows  := t.rows.filter (! p ·)
  nodup := t.nodup.sublist (List.filter_sublist.map _)

omit [DecidableEq κ] in
@[simp]
theorem mem_delete {p : ρ → Bool} : r ∈ t.delete p ↔ r ∈ t ∧ p r = false := by
  simp [delete, ←mem_rows]

theorem find?_delete {p : ρ → Bool} : (t.delete p).find? k = (t.find? k).filter (! p ·) := by
  ext r
  simp only [find?_eq_some_iff, mem_delete, Option.filter_eq_some_iff, Bool.not_eq_eq_eq_not,
    Bool.not_true]
  tauto

theorem find?_delete_of_not {p : ρ → Bool} (h : ∀ r ∈ t, key r = k → p r = false) :
    (t.delete p).find? k = t.find? k := by
  ext r
  simp only [find?_eq_some_iff, mem_delete]
  constructor
  case mp  => exact fun ⟨⟨hm, _⟩, hk⟩ => ⟨hm, hk⟩
  case mpr => exact fun ⟨hm, hk⟩ => ⟨⟨hm, h r hm hk⟩, hk⟩

-- INSERT OR REPLACE
def insert (t : Table ρ) (r : ρ) : Table ρ where
  rows  := t.rows.filter (key · ≠ key r) ++ [r]
  nodup := by
    have h := t.nodup.sublist ((List.filter_sublist (p := (key · ≠ key r))).map key)
    simp only [List.map_append, List.map_cons, List.map_nil]
    refine List.Nodup.append h (List.nodup_singleton _) ?_
    simp

@[simp]
theorem mem_insert : r' ∈ t.insert r ↔ r' = r ∨ (r' ∈ t ∧ key r' ≠ key r) := by
  simp only [insert, ←mem_rows, List.mem_append, List.mem_filter, decide_eq_true_eq,
    List.mem_singleton]
  tauto

-- A row that is there already is written again.
theorem mem_insert_of_mem (h : r ∈ t) : r' ∈ t.insert r ↔ r' ∈ t := by
  rw [mem_insert]
  constructor
  case mp =>
    rintro (rfl | ⟨hr, _⟩)
    · exact h
    · exact hr
  case mpr =>
    intro hr
    by_cases hk : key r' = key r
    · exact .inl (eq_of_key_eq hr h hk)
    · exact .inr ⟨hr, hk⟩

theorem find?_insert : (t.insert r).find? k = if k = key r then some r else t.find? k := by
  ext r'
  split
  case isTrue h =>
    simp only [find?_eq_some_iff, mem_insert, Option.some.injEq, h]
    constructor
    case mp  => exact fun ⟨hm, hk⟩ => (hm.resolve_right (·.right hk)).symm
    case mpr => rintro rfl; exact ⟨.inl rfl, rfl⟩
  case isFalse h =>
    simp only [find?_eq_some_iff, mem_insert]
    constructor
    case mp  => rintro ⟨rfl | ⟨hm, _⟩, hk⟩; exacts [absurd hk.symm h, ⟨hm, hk⟩]
    case mpr => exact fun ⟨hm, hk⟩ => ⟨.inr ⟨hm, fun he => h (hk.symm.trans he)⟩, hk⟩

theorem find?_insert_self : (t.insert r).find? (key r) = some r := by
  simp [find?_insert]

theorem find?_insert_of_ne (h : k ≠ key r) : (t.insert r).find? k = t.find? k := by
  simp [find?_insert, h]

omit [DecidableEq κ] in
theorem ext_rows (h : t₁.rows = t₂.rows) : t₁ = t₂ := by
  cases t₁
  cases t₂
  cases h
  rfl

-- UPDATE, where the new rows may get new keys. It fails when two rows end up with the same key.
def update (t : Table ρ) (f : ρ → ρ) : Option (Table ρ) :=
  if h : ((t.rows.map f).map key).Nodup then some ⟨t.rows.map f, h⟩ else none

theorem mem_update {f : ρ → ρ} {t' : Table ρ} (h : t.update f = some t') :
    r' ∈ t' ↔ ∃ r ∈ t, f r = r' := by
  unfold update at h
  split at h <;> cases h
  simp [←mem_rows]

theorem update_eq_some_iff {f : ρ → ρ} {t' : Table ρ} :
    t.update f = some t' ↔ t'.rows = t.rows.map f := by
  unfold update
  constructor
  case mp =>
    intro h
    split at h <;> cases h
    rfl
  case mpr =>
    intro h
    rw [dif_pos (h ▸ t'.nodup)]
    exact congrArg some (ext_rows h.symm)

-- An update succeeds iff it keeps different rows at different keys.
theorem update_isSome_iff {f : ρ → ρ} :
    (t.update f).isSome ↔ ∀ r₁ ∈ t, ∀ r₂ ∈ t, key (f r₁) = key (f r₂) → r₁ = r₂ := by
  have hn : t.rows.Nodup := t.nodup.of_map _
  unfold update
  split
  case isTrue h =>
    simp only [Option.isSome_some, true_iff]
    rw [List.map_map] at h
    exact fun r₁ h₁ r₂ h₂ he => List.inj_on_of_nodup_map h h₁ h₂ he
  case isFalse h =>
    simp only [Option.isSome_none, Bool.false_eq_true, false_iff]
    rw [List.map_map] at h
    exact fun hi => h (hn.map_on fun r₁ h₁ r₂ h₂ he => hi r₁ h₁ r₂ h₂ he)

theorem update_bijOn {f : ρ → ρ} {t' : Table ρ} (h : t.update f = some t') :
    Set.BijOn f {r | r ∈ t} {r | r ∈ t'} := by
  refine ⟨fun r hr => (mem_update h).mpr ⟨r, hr, rfl⟩, ?_, fun r hr => (mem_update h).mp hr⟩
  have hi := update_isSome_iff.mp (Option.isSome_iff_exists.mpr ⟨t', h⟩)
  exact fun r₁ h₁ r₂ h₂ he => hi r₁ h₁ r₂ h₂ (congrArg key he)

-- Two updates can be exchanged, if rows that one of them puts at the same key are not parted by the
-- other one.
theorem update_comm {f g : ρ → ρ} (hc : ∀ r, f (g r) = g (f r))
    (hk : ∀ r r', key r ≠ key r' → key (g r) = key (g r') → key (f (g r)) = key (f (g r')))
    (hf : t.update f = some t₁) (hg : t₁.update g = some t₂) :
    ∃ t₁', t.update g = some t₁' ∧ t₁'.update f = some t₂ := by
  have hs : (t.update g).isSome := by
    rw [update_isSome_iff]
    intro r h r' h' he
    by_contra hn
    have hkey := hk r r' (fun hk => hn (eq_of_key_eq h h' hk)) he
    rw [hc, hc] at hkey
    have hm := (update_bijOn hf).mapsTo
    have hr := update_isSome_iff.mp (Option.isSome_iff_exists.mpr ⟨t₂, hg⟩) _ (hm h) _ (hm h') hkey
    exact hn ((update_bijOn hf).injOn h h' hr)
  obtain ⟨t₁', ht⟩ := Option.isSome_iff_exists.mp hs
  refine ⟨t₁', ht, ?_⟩
  rw [update_eq_some_iff] at *
  rw [hg, hf, ht, List.map_map, List.map_map]
  exact List.map_congr_left fun r _ => (hc r).symm

end Table
