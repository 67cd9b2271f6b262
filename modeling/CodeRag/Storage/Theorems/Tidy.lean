import CodeRag.Storage.Theorems.Atomic
import CodeRag.Storage.Theorems.Owned
import CodeRag.Storage.Theorems.Rewrite

-- An index in which every row has its place, also after a transaction that fails.

namespace String

-- What stands before the first colon.
theorem eq_of_append_colon {p p' q q' : String} (hp : ':' ∉ p.toList) (hp' : ':' ∉ p'.toList)
    (h : p ++ ":" ++ q = p' ++ ":" ++ q') : p = p' := by
  have htake : ∀ {p q : String}, ':' ∉ p.toList →
      (p ++ ":" ++ q).toList.takeWhile (· ≠ ':') = p.toList := by
    intro p q hp
    have hall : ∀ c ∈ p.toList, (decide (c ≠ ':')) = true := by
      intro c hc
      simpa using fun he : c = ':' => hp (he ▸ hc)
    have hcolon : ":".toList = [':'] := rfl
    rw [toList_append, toList_append, hcolon, List.append_assoc, List.takeWhile_append_of_pos hall,
      List.singleton_append, List.takeWhile_cons_of_neg (by simp), List.append_nil]
  rw [←toList_inj, ←htake hp, ←htake hp', h]

end String

-- The unit is named by its path, in which there is no colon.
structure UnitRow.Tidy (u : UnitRow) : Prop where
  path : ':' ∉ u.path.toList
  id   : ∃ q, u.id = u.path ++ ":" ++ q

namespace Db

variable {F : Floats} {db db' : Db F} {m path old new : String} {u : UnitRow} {p : UnitRow → Bool}
variable {vector : Option (List F)} {rels : List Relation}

-- All units are named by their paths, and all vectors belong to one of them.
structure Tidy (db : Db F) : Prop where
  units : ∀ u ∈ db.units, u.Tidy
  owned : db.Owned

namespace Tidy

theorem empty : (Db.empty : Db F).Tidy where
  units _ h := (Table.not_mem_empty h).elim
  owned _ h := by cases h

theorem named (h : db.Tidy) : db.Named where
  units u hu   := (h.units u hu).id
  vectors i hi := by
    obtain ⟨u, hu⟩ := Option.isSome_iff_exists.mp (h.owned i hi)
    exact ⟨u, Table.mem_of_find? hu, Table.key_of_find? hu⟩

theorem separate (h : db.Tidy) (hp : ':' ∉ path.toList) : db.Separate path := by
  intro u hu hs
  obtain ⟨q, hq⟩ := (h.units u hu).id
  obtain ⟨r, hr⟩ := String.hasPrefix_iff.mp hs
  exact String.eq_of_append_colon (h.units u hu).path hp (hq.symm.trans hr)

theorem of_eq (h : db.Tidy) (hu : db'.units = db.units) (hv : ∀ i, db'.vec? i = db.vec? i) : db'.Tidy where
  units := hu ▸ h.units
  owned := h.owned.of_eq hu hv

theorem binds (h : db.Tidy) (hb : Binds m db db') : db'.Tidy :=
  h.of_eq hb.units fun _ => hb.vec?

theorem stores (h : db.Tidy) (hu : u.Tidy) (hs : db.Stores u vector rels db') : db'.Tidy where
  units u' hm := by
    obtain he | he := hs.units <;> rw [he] at hm
    case inl => exact h.units u' hm
    case inr =>
      obtain rfl | ⟨hm, _⟩ := Table.mem_insert.mp hm
      · exact hu
      · exact h.units u' hm
  owned := h.owned.stores hs

theorem deletes (h : db.Tidy) (hd : db.Deletes p db') : db'.Tidy where
  units u hm := by
    obtain he | ⟨he, _⟩ := hd.units <;> rw [he] at hm
    case inl => exact h.units u hm
    case inr => exact h.units u (Table.mem_delete.mp hm).left
  owned := h.owned.deletes hd

-- A path without a colon is rewritten to another one.
theorem rewritesTo (h : db.Tidy) (ho : ':' ∉ old.toList) (hn : ':' ∉ new.toList)
    (hr : db.RewritesTo old new db') : db'.Tidy := by
  have hw := hr.rewritten h.named (h.separate ho)
  refine ⟨fun u' hu' => ?_, fun i hi => ?_⟩
  · obtain ⟨u, hu, rfl⟩ := hw.units.surjOn hu'
    show (u.movedTo old new).Tidy
    unfold UnitRow.movedTo
    split
    case isTrue  => exact ⟨hn, _, rfl⟩
    case isFalse => exact h.units u hu
  · obtain ⟨u, hu, rfl⟩ := hw.owned i hi
    rw [←key_unitRow, Table.find?_of_mem hu]
    rfl

end Tidy

-- The rows of some paths have been deleted.
structure Drop (paths : List String) (db db' : Db F) : Prop where
  units        : ∀ u, u ∈ db'.units ↔ u ∈ db.units ∧ u.path ∉ paths
  vec          : ∀ i, (∀ u ∈ db.units, u.id = i → u.path ∉ paths) → db'.vec? i = db.vec? i
  dependencies : db'.dependencies = db.dependencies
  indexMeta    : db'.indexMeta = db.indexMeta

end Db

namespace Conn

open EStateM World

variable {F : Floats} {w w' : World F} {embedder : Embedder F} {old new : String} {paths : List String}

theorem deletePath_built {b : Bool} {stored : String} : Built (F := F) (deletePath b stored) := by
  refine .bind ?_ fun _ => .bind execute_built fun _ => execute_built
  split
  · exact execute_built
  · exact .pure

-- The statements that delete the rows of a path, if none of them fails.
theorem deletePath_post {b : Bool} {stored : String} : (deletePath b stored).post
    (fun r w' => r = .ok () → w.db.Drop [stored] w'.db) w := by
  have hvec : ∀ {db : Db F} {i : String}, (∀ u ∈ db.units, u.id = i → u.path ∉ [stored]) →
      db.unitIdWhere (fun u => decide (u.path = stored)) i = false := by
    intro db i hi
    unfold Db.unitIdWhere
    cases hf : db.units.find? i
    case none   => rfl
    case some u =>
      have hp := hi u (Table.mem_of_find? hf) (Table.key_of_find? hf)
      simpa using fun he : u.path = stored => hp (he ▸ List.mem_singleton_self _)
  refine post_bind (P := fun r w₁ => r = .ok () → w₁.db.units = w.db.units ∧
    (∀ i, w.db.unitIdWhere (fun u => decide (u.path = stored)) i = false → w₁.db.vec? i = w.db.vec? i) ∧
    w₁.db.dependencies = w.db.dependencies ∧ w₁.db.indexMeta = w.db.indexMeta) ?_ ?_ fun _ _ _ => nofun
  · cases b
    case false => exact post_pure fun _ => ⟨rfl, fun _ _ => rfl, rfl, rfl⟩
    case true  =>
      rw [if_pos rfl]
      refine post_mono execute_post ?_
      rintro _ _ (⟨_, e, rfl⟩ | ⟨db, fs, hd, _, rfl, _⟩)
      case inl => exact nofun
      split at hd <;> cases hd
      exact fun _ => ⟨rfl, fun i hi => Db.vec?_deleteVectors.trans (if_neg (by simp [hi])), rfl, rfl⟩
  rintro _ w₁ h₁
  obtain ⟨hu, hv, hd, hm⟩ := h₁ rfl
  refine post_bind execute_post ?_ fun _ _ _ => nofun
  rintro _ w₂ (⟨_, e, h⟩ | ⟨db, fs, hdb, _, rfl, _⟩)
  case inl => cases h
  cases hdb
  refine post_mono execute_post ?_
  rintro _ _ (⟨_, e, rfl⟩ | ⟨db, fs', hdb, _, rfl, _⟩)
  case inl => exact nofun
  cases hdb
  refine fun _ => ⟨fun u => ?_, fun i hi => hv i (hvec hi), hd, hm⟩
  show u ∈ w₁.db.units.delete _ ↔ _
  rw [Table.mem_delete, hu]
  simp

theorem deletePaths_post {b : Bool} : (paths.forM (deletePath b)).post
    (fun r w' => r = .ok () → w.db.Drop paths w'.db) w := by
  induction paths generalizing w
  case nil => exact post_pure fun _ => ⟨by simp, fun _ _ => rfl, rfl, rfl⟩
  case cons path paths ih =>
    refine post_bind deletePath_post (fun _ w₁ h₁ => ?_) fun _ _ _ => nofun
    have h₁ := h₁ rfl
    refine post_mono ih fun r w' h' hr => ?_
    have h' := h' hr
    refine ⟨fun u => ?_, fun i hi => ?_, h'.dependencies.trans h₁.dependencies,
      h'.indexMeta.trans h₁.indexMeta⟩
    · rw [h'.units, h₁.units, List.mem_singleton, List.mem_cons]
      tauto
    · rw [h'.vec i fun u hu he hm => hi u ((h₁.units u).mp hu).left he (List.mem_cons_of_mem _ hm)]
      exact h₁.vec i fun u hu he hm => hi u hu he (List.mem_singleton.mp hm ▸ List.mem_cons_self)

theorem deleteAbsolutePaths_post : (deleteAbsolutePaths paths).post
    (fun r w' => (∀ e, r = .error e → w'.committed = w.committed) ∧
      (r = .ok () → w.saved = none ∧ w'.saved = none ∧ w.db.Drop paths w'.db)) w := by
  refine transaction_post (.bind select_built fun _ => .forM (fun _ => deletePath_built) _) fun w₁ hdb hm => ?_
  refine post_bind select_post (fun b w₂ ⟨⟨fs, hw⟩, _⟩ => ?_) fun _ _ _ => nofun
  subst hw
  rw [←hdb]
  exact deletePaths_post

-- A transaction is refused inside of another one.
theorem transaction_refused {body : Conn F Unit} (hs : w.saved.isSome) :
    (transaction body w).state.saved = w.saved := by
  have h : ∃ e, beginTransaction w = .error e w.tick := by
    obtain ⟨db, hdb⟩ := Option.isSome_iff_exists.mp hs
    unfold beginTransaction statement
    cases w.faults 0
    case true  => exact ⟨_, rfl⟩
    case false => exact ⟨.database "cannot start a transaction within a transaction", by simp [hdb]⟩
  obtain ⟨e, h⟩ := h
  rw [show transaction body w = .error e w.tick from bind_of_error h]
  rfl

end Conn
