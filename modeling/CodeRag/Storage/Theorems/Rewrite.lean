import CodeRag.Lib.Action
import CodeRag.Storage.Theorems.Atomic
import CodeRag.Storage.Theorems.Ready

-- What the rewrite of a stored path does to the tables.

section RewriteId

variable {old new i q : String} {m m' : String × String}

theorem rewriteId_append : rewriteId old new (old ++ ":" ++ q) = new ++ ":" ++ q := by
  rw [rewriteId, if_pos String.hasPrefix_append, String.append_assoc',
    String.substringFrom_append, String.append_assoc']

theorem rewriteId_of_not (h : i.hasPrefix (old ++ ":") = false) : rewriteId old new i = i := by
  rw [rewriteId, if_neg (by simp [h])]

theorem rewriteId_cases (old new i : String) :
    (∃ q, i = old ++ ":" ++ q ∧ rewriteId old new i = new ++ ":" ++ q) ∨
      i.hasPrefix (old ++ ":") = false ∧ rewriteId old new i = i := by
  cases h : i.hasPrefix (old ++ ":")
  case false => exact .inr ⟨rfl, rewriteId_of_not h⟩
  case true =>
    obtain ⟨q, rfl⟩ := String.hasPrefix_iff.mp h
    exact .inl ⟨q, rfl, rewriteId_append⟩

-- Neither of two renamings applies to the ids of the other one.
structure Apart (m m' : String × String) : Prop where
  olds  : ∀ i : String, i.hasPrefix (m.1 ++ ":") → i.hasPrefix (m'.1 ++ ":") = false
  left  : ∀ q, (m.2 ++ ":" ++ q).hasPrefix (m'.1 ++ ":") = false
  right : ∀ q, (m'.2 ++ ":" ++ q).hasPrefix (m.1 ++ ":") = false

theorem Apart.rewriteId_comm (h : Apart m m') :
    rewriteId m.1 m.2 (rewriteId m'.1 m'.2 i) = rewriteId m'.1 m'.2 (rewriteId m.1 m.2 i) := by
  cases hi : i.hasPrefix (m.1 ++ ":")
  case true =>
    obtain ⟨q, rfl⟩ := String.hasPrefix_iff.mp hi
    rw [rewriteId_of_not (h.olds _ hi), rewriteId_append, rewriteId_of_not (h.left q)]
  case false =>
    rw [rewriteId_of_not hi]
    obtain ⟨q, rfl, hr⟩ | ⟨_, hr⟩ := rewriteId_cases m'.1 m'.2 i
    case inl => rw [hr, rewriteId_of_not (h.right q)]
    case inr => rw [hr, rewriteId_of_not hi]

theorem Apart.rewriteRelation_comm (h : Apart m m') {r : Relation} :
    (r.rewritePath m'.1 m'.2).rewritePath m.1 m.2 = (r.rewritePath m.1 m.2).rewritePath m'.1 m'.2 := by
  simp only [Relation.rewritePath, Relation.mk.injEq, and_true]
  exact ⟨h.rewriteId_comm, h.rewriteId_comm⟩

theorem Apart.ne (h : Apart m m') : m.1 ≠ m'.1 ∧ m.2 ≠ m'.1 ∧ m'.2 ≠ m.1 := by
  have hp : ∀ s : String, (s ++ ":").hasPrefix (s ++ ":") := fun s =>
    String.hasPrefix_iff.mpr ⟨"", by simp⟩
  have hq : ∀ s : String, (s ++ ":" ++ "").hasPrefix (s ++ ":") := fun s => String.hasPrefix_append
  refine ⟨fun he => ?_, fun he => ?_, fun he => ?_⟩
  · have hf := h.olds _ (hp m.1)
    rw [he, hp] at hf
    cases hf
  · have hf := h.left ""
    rw [he, hq] at hf
    cases hf
  · have hf := h.right ""
    rw [he, hq] at hf
    cases hf

theorem UnitRow.rewritePath_eq {u : UnitRow} (h : u.path = old) :
    u.rewritePath old new = { u with path := new, id := rewriteId old new u.id } :=
  if_pos h

theorem UnitRow.rewritePath_of_ne {u : UnitRow} (h : u.path ≠ old) : u.rewritePath old new = u :=
  if_neg h

theorem Apart.rewriteUnit_comm (h : Apart m m') {u : UnitRow} :
    (u.rewritePath m'.1 m'.2).rewritePath m.1 m.2 = (u.rewritePath m.1 m.2).rewritePath m'.1 m'.2 := by
  obtain ⟨holds, hl, hr⟩ := h.ne
  by_cases hu : u.path = m.1
  case pos =>
    have hu' : u.rewritePath m'.1 m'.2 = u := UnitRow.rewritePath_of_ne (by rwa [hu])
    rw [hu', UnitRow.rewritePath_eq hu]
    exact (UnitRow.rewritePath_of_ne (u := { u with path := m.2, id := _ }) hl).symm
  case neg =>
    rw [UnitRow.rewritePath_of_ne hu]
    by_cases hu' : u.path = m'.1
    case neg => rw [UnitRow.rewritePath_of_ne hu', UnitRow.rewritePath_of_ne hu]
    case pos =>
      rw [UnitRow.rewritePath_eq hu']
      exact UnitRow.rewritePath_of_ne (u := { u with path := m'.2, id := _ }) hr

theorem UnitRow.rewritePath_id (old new : String) (u : UnitRow) : (u.rewritePath old new).id = u.id ∨
    ∃ q, (u.rewritePath old new).id = new ++ ":" ++ q := by
  unfold UnitRow.rewritePath
  split
  case isFalse => exact .inl rfl
  case isTrue =>
    obtain ⟨q, _, hr⟩ | ⟨_, hr⟩ := rewriteId_cases old new u.id
    case inl => exact .inr ⟨q, hr⟩
    case inr => exact .inl hr

-- Ids that become equal in one renaming are not changed by the other one.
theorem Apart.parted (h : Apart m m') {u u' : UnitRow} (hn : u.id ≠ u'.id)
    (he : (u.rewritePath m'.1 m'.2).id = (u'.rewritePath m'.1 m'.2).id) :
    ((u.rewritePath m'.1 m'.2).rewritePath m.1 m.2).id =
      ((u'.rewritePath m'.1 m'.2).rewritePath m.1 m.2).id := by
  have hfix : ∀ u : UnitRow, (∃ q, u.id = m'.2 ++ ":" ++ q) → (u.rewritePath m.1 m.2).id = u.id := by
    rintro u ⟨q, hq⟩
    unfold UnitRow.rewritePath
    split
    case isFalse => rfl
    case isTrue  => exact rewriteId_of_not (hq ▸ h.right q)
  have hq : ∃ q, (u.rewritePath m'.1 m'.2).id = m'.2 ++ ":" ++ q := by
    obtain hu | hu := UnitRow.rewritePath_id m'.1 m'.2 u
    case inr => exact hu
    case inl =>
      obtain hu' | hu' := UnitRow.rewritePath_id m'.1 m'.2 u'
      case inl => exact absurd (hu.symm.trans (he.trans hu')) hn
      case inr => exact hu'.imp fun q hq => he.trans hq
  rw [hfix _ hq, hfix _ (he ▸ hq), he]

end RewriteId

-- What follows the path and the colon in the id of a unit.
def UnitRow.qualifiedName (u : UnitRow) : String :=
  u.id.substringFrom (u.path.length + 2)

-- A unit after the file `old` has become the file `new`.
def UnitRow.movedTo (old new : String) (u : UnitRow) : UnitRow :=
  if u.path = old then { u with path := new, id := new ++ ":" ++ u.qualifiedName } else u

namespace UnitRow

variable {old new q : String} {u : UnitRow}

theorem qualifiedName_eq (h : u.id = u.path ++ ":" ++ q) : u.qualifiedName = q := by
  have hl : u.path.length + 2 = (u.path ++ ":").length + 1 := by
    rw [String.length_append]
    rfl
  rw [qualifiedName, h, hl, String.substringFrom_append]

theorem rewritePath_eq_movedTo (h : u.id = u.path ++ ":" ++ q) :
    u.rewritePath old new = u.movedTo old new := by
  unfold rewritePath movedTo
  split
  case isFalse => rfl
  case isTrue hp => rw [qualifiedName_eq h, h, hp, rewriteId_append]

theorem rewriteId_eq_movedTo (h : u.id = u.path ++ ":" ++ q)
    (hs : u.id.hasPrefix (old ++ ":") → u.path = old) :
    rewriteId old new u.id = (u.movedTo old new).id := by
  unfold movedTo
  split
  case isTrue hp  => rw [qualifiedName_eq h, h, hp, rewriteId_append]
  case isFalse hp => exact rewriteId_of_not (by simpa using mt hs hp)

end UnitRow

namespace Embeddings

variable {F : Floats} {e e' e₁ e₂ : Embeddings F} {f g : String → String}

theorem rename_eq_some_iff : e.rename f = some e' ↔
    e.rows.update (fun r => { r with id := f r.id }) = some e'.rows ∧ e'.width = e.width := by
  unfold rename
  split
  case h_1 hn =>
    simp only [reduceCtorEq, false_iff, not_and]
    intro h
    cases hn.symm.trans h
  case h_2 rows hr =>
    constructor
    case mp  => rintro ⟨⟩; exact ⟨hr, rfl⟩
    case mpr =>
      rintro ⟨h, hw⟩
      cases e'
      cases hr.symm.trans h
      cases hw
      rfl

theorem rename_comm (hc : ∀ i, f (g i) = g (f i)) (h₁ : e.rename f = some e₁)
    (h₂ : e₁.rename g = some e₂) : ∃ e₁', e.rename g = some e₁' ∧ e₁'.rename f = some e₂ := by
  obtain ⟨hr₁, hw₁⟩ := rename_eq_some_iff.mp h₁
  obtain ⟨hr₂, hw₂⟩ := rename_eq_some_iff.mp h₂
  obtain ⟨rows, hg, hf⟩ := Table.update_comm (fun r : VecRow F => by simp only [hc])
    (fun _ _ _ => congrArg f) hr₁ hr₂
  have hs : (e.rename g).isSome := by
    unfold rename
    split
    case h_1 hn => cases hn.symm.trans hg
    case h_2    => rfl
  obtain ⟨e₁', he⟩ := Option.isSome_iff_exists.mp hs
  obtain ⟨hr, hw⟩ := rename_eq_some_iff.mp he
  obtain rfl := Option.some.inj (hr.symm.trans hg)
  exact ⟨e₁', he, rename_eq_some_iff.mpr ⟨hf, by rw [hw₂, hw₁, hw]⟩⟩

end Embeddings

namespace Db

variable {F : Floats} {db db₁ db₂ : Db F} {old new : String} {m m' : String × String}

-- Every unit is named by its path, and every vector belongs to a unit.
structure Named (db : Db F) : Prop where
  units   : ∀ u ∈ db.units, ∃ q, u.id = u.path ++ ":" ++ q
  vectors : ∀ i, (db.vec? i).isSome → ∃ u ∈ db.units, u.id = i

-- Only the units of the path have ids that begin with the path and a colon.
def Separate (db : Db F) (path : String) : Prop :=
  ∀ u ∈ db.units, u.id.hasPrefix (path ++ ":") → u.path = path

-- The file `old` has become the file `new`.
structure Rewritten (old new : String) (db db' : Db F) : Prop where
  units        : Set.BijOn (·.movedTo old new) {u | u ∈ db.units} {u | u ∈ db'.units}
  vectors      : ∀ u ∈ db.units, db'.vec? (u.movedTo old new).id = db.vec? u.id
  owned        : ∀ i, (db'.vec? i).isSome → ∃ u ∈ db'.units, u.id = i
  relations    : ∃ f : String → String, (∀ u ∈ db.units, f u.id = (u.movedTo old new).id) ∧
    (∀ i, i.hasPrefix (old ++ ":") = false → f i = i) ∧
    Set.BijOn (fun r : Relation => { r with fromId := f r.fromId, toId := f r.toId })
      {r | r ∈ db.relations} {r | r ∈ db'.relations}
  dependencies : db'.dependencies = db.dependencies
  indexMeta    : db'.indexMeta = db.indexMeta
  table        : db'.embeddings.isSome = db.embeddings.isSome
  width        : db'.width? = db.width?

-- What the statements of a rewrite do.
structure RewritesTo (old new : String) (db db' : Db F) : Prop where
  units        : db.units.update (·.rewritePath old new) = some db'.units
  embeddings   : db.embeddings.map (·.rename (rewriteId old new)) = db'.embeddings.map some
  relations    : db.relations.update (·.rewritePath old new) = some db'.relations
  dependencies : db'.dependencies = db.dependencies
  indexMeta    : db'.indexMeta = db.indexMeta

namespace RewritesTo

theorem unique (h₁ : db.RewritesTo old new db₁) (h₂ : db.RewritesTo old new db₂) : db₁ = db₂ := by
  have hu := h₁.units.symm.trans h₂.units
  have he := h₁.embeddings.symm.trans h₂.embeddings
  have hr := h₁.relations.symm.trans h₂.relations
  have hd := h₁.dependencies.trans h₂.dependencies.symm
  have hm := h₁.indexMeta.trans h₂.indexMeta.symm
  cases db₁
  cases db₂
  cases hu
  cases hr
  cases hd
  cases hm
  cases Option.map_injective (Option.some_injective _) he
  rfl

theorem comm (h : Apart m m') (h₁ : db.RewritesTo m.1 m.2 db₁) (h₂ : db₁.RewritesTo m'.1 m'.2 db₂) :
    ∃ db₁', db.RewritesTo m'.1 m'.2 db₁' ∧ db₁'.RewritesTo m.1 m.2 db₂ := by
  obtain ⟨units, hu, hu'⟩ := Table.update_comm (f := UnitRow.rewritePath m.1 m.2)
    (g := UnitRow.rewritePath m'.1 m'.2) (fun _ => h.rewriteUnit_comm) (fun _ _ => h.parted)
    h₁.units h₂.units
  obtain ⟨relations, hr, hr'⟩ := Table.update_comm (f := Relation.rewritePath m.1 m.2)
    (g := Relation.rewritePath m'.1 m'.2) (fun _ => h.rewriteRelation_comm)
    (fun _ _ _ => congrArg (Relation.rewritePath m.1 m.2)) h₁.relations h₂.relations
  have he : ∃ embeddings : Option (Embeddings F),
      db.embeddings.map (·.rename (rewriteId m'.1 m'.2)) = embeddings.map some ∧
      embeddings.map (·.rename (rewriteId m.1 m.2)) = db₂.embeddings.map some := by
    have he₁ := h₁.embeddings
    have he₂ := h₂.embeddings
    cases hdb : db.embeddings <;> rw [hdb] at he₁
    case none =>
      rw [Option.map_eq_none_iff.mp he₁.symm] at he₂
      exact ⟨none, rfl, he₂⟩
    case some e =>
      obtain ⟨e₁, hdb₁, he₁⟩ := Option.map_eq_some_iff.mp he₁.symm
      rw [hdb₁] at he₂
      obtain ⟨e₂, hdb₂, he₂⟩ := Option.map_eq_some_iff.mp he₂.symm
      obtain ⟨e₁', he, he'⟩ := Embeddings.rename_comm (f := rewriteId m.1 m.2)
        (g := rewriteId m'.1 m'.2) (fun _ => h.rewriteId_comm) he₁.symm he₂.symm
      exact ⟨some e₁', congrArg some he, by rw [hdb₂]; exact congrArg some he'⟩
  obtain ⟨embeddings, he, he'⟩ := he
  exact ⟨{ db with units := units, embeddings := embeddings, relations := relations },
    ⟨hu, he, hr, rfl, rfl⟩,
    ⟨hu', he', hr', h₂.dependencies.trans h₁.dependencies, h₂.indexMeta.trans h₁.indexMeta⟩⟩

theorem rewritten (h : db.RewritesTo old new db₁) (hn : db.Named) (hs : db.Separate old) :
    db.Rewritten old new db₁ := by
  have hmoved : ∀ u ∈ db.units, u.rewritePath old new = u.movedTo old new := fun u hu =>
    (hn.units u hu).elim fun _ => UnitRow.rewritePath_eq_movedTo
  have hid : ∀ u ∈ db.units, rewriteId old new u.id = (u.movedTo old new).id := fun u hu =>
    (hn.units u hu).elim fun _ hq => UnitRow.rewriteId_eq_movedTo hq (hs u hu)
  have hunits : Set.BijOn (·.movedTo old new) {u | u ∈ db.units} {u | u ∈ db₁.units} :=
    (Table.update_bijOn h.units).congr hmoved
  have hinj : ∀ u ∈ db.units, ∀ u' ∈ db.units,
      (u.movedTo old new).id = (u'.movedTo old new).id → u = u' := by
    intro u hu u' hu' he
    have hm := Table.eq_of_key_eq (hunits.mapsTo hu) (hunits.mapsTo hu') he
    exact hunits.injOn hu hu' hm
  have hvec : ∀ i v, db₁.vec? i = some v ↔ ∃ j, rewriteId old new j = i ∧ db.vec? j = some v := by
    intro i v
    simp only [vec?_eq_some_iff]
    have he := h.embeddings
    cases hdb : db.embeddings <;> rw [hdb] at he
    case none => simp [Option.map_eq_none_iff.mp he.symm]
    case some e =>
      obtain ⟨e', he', hr⟩ := Option.map_eq_some_iff.mp he.symm
      have hr := (Embeddings.rename_eq_some_iff.mp hr.symm).left
      simp only [he', Option.some.injEq, exists_eq_left', Table.mem_update hr]
      constructor
      case mp  => rintro ⟨_, ⟨r, hr, rfl⟩, hi, hv⟩; exact ⟨r.id, hi, r, hr, rfl, hv⟩
      case mpr => rintro ⟨_, hi, r, hr, rfl, hv⟩; exact ⟨_, ⟨r, hr, rfl⟩, hi, hv⟩
  refine ⟨hunits, fun u hu => ?_, fun i hi => ?_, ?_, h.dependencies, h.indexMeta, ?_, ?_⟩
  · ext v
    rw [hvec]
    constructor
    case mpr => exact fun hv => ⟨u.id, hid u hu, hv⟩
    case mp =>
      rintro ⟨j, hj, hv⟩
      obtain ⟨u', hu', rfl⟩ := hn.vectors j (by rw [hv]; rfl)
      rwa [hinj u hu u' hu' (by rw [←hj, hid u' hu'])]
  · obtain ⟨v, hv⟩ := Option.isSome_iff_exists.mp hi
    obtain ⟨j, rfl, hj⟩ := (hvec i v).mp hv
    obtain ⟨u, hu, rfl⟩ := hn.vectors j (by rw [hj]; rfl)
    exact ⟨_, hunits.mapsTo hu, (hid u hu).symm⟩
  · exact ⟨rewriteId old new, hid, fun _ => rewriteId_of_not, Table.update_bijOn h.relations⟩
  · have he := congrArg Option.isSome h.embeddings
    simpa using he.symm
  · have he := h.embeddings
    unfold width?
    cases hdb : db.embeddings <;> rw [hdb] at he
    case none => rw [Option.map_eq_none_iff.mp he.symm]
    case some e =>
      obtain ⟨e', he', hr⟩ := Option.map_eq_some_iff.mp he.symm
      rw [he']
      exact (Embeddings.rename_eq_some_iff.mp hr.symm).right

end RewritesTo
end Db

namespace Conn

open EStateM World

variable {F : Floats} {w : World F} {db : Db F} {old new : String}

private theorem renameVectors_post {f : String → String} :
    (if w.db.embeddings.isSome then renameVectors f else pure () : Conn F Unit).post
      (fun r w' => r = .ok () → ∃ embeddings fs,
        w' = { w with db := { w.db with embeddings := embeddings }, faults := fs } ∧
        w.db.embeddings.map (·.rename f) = embeddings.map some) w := by
  cases he : w.db.embeddings
  case none => exact post_pure fun _ => ⟨none, w.faults, by rw [←he], rfl⟩
  case some e =>
    rw [Option.isSome_some, if_pos rfl]
    refine post_mono execute_post ?_
    rintro _ w' (⟨_, _, rfl⟩ | ⟨db, fs, hr, -, rfl, rfl⟩)
    case inl => exact nofun
    rw [he] at hr
    dsimp only at hr
    split at hr <;> cases hr
    case h_1 e' hr => exact fun _ => ⟨some e', fs, rfl, congrArg some hr⟩

private theorem execute_ok {f : Db F → Except Exn (Db F)} {α : Type} {x : Conn F α}
    {Q : Except Exn α → World F → Prop} (hq : ∀ e w', Q (.error e) w')
    (ok : ∀ db fs, f w.db = .ok db → w.mode = .readWrite →
      x.post Q { w with db := db, faults := fs }) : (execute f >>= fun _ => x).post Q w := by
  refine post_bind execute_post ?_ fun _ _ _ => hq _ _
  rintro _ w₁ (⟨_, _, h⟩ | ⟨db, fs, hf, hm, rfl, -⟩)
  case inl => cases h
  case inr => exact ok db fs hf hm

theorem rewritePathPrefix_post : (rewritePathPrefix old new w.db.embeddings.isSome).post
    (fun r w' => r = .ok () → w.mode = .readWrite ∧ w.db.RewritesTo old new w'.db) w := by
  refine execute_ok (fun _ _ => nofun) fun db₁ fs₁ hu hm => ?_
  split at hu <;> cases hu
  case h_1 units hu =>
    refine post_bind (renameVectors_post (w := { w with db := { w.db with units := units }, faults := fs₁ }))
      ?_ fun _ _ _ => nofun
    intro _ w₂ h₂
    obtain ⟨embeddings, fs₂, rfl, he⟩ := h₂ rfl
    refine post_mono execute_post ?_
    rintro _ w' (⟨_, _, rfl⟩ | ⟨db, fs, hr, -, rfl, rfl⟩)
    case inl => exact nofun
    dsimp only at hr
    split at hr <;> cases hr
    case h_1 relations hr => exact fun _ => ⟨hm, hu, he, hr, rfl, rfl⟩

theorem commitRewrittenPath_post : (commitRewrittenPath old new).post
    (fun r w' => (∀ e, r = .error e → w'.committed = w.committed) ∧ (r = .ok () →
      w.saved = none ∧ w'.saved = none ∧ w.mode = .readWrite ∧ w.db.RewritesTo old new w'.db)) w := by
  refine transaction_post (P := fun db => w.mode = .readWrite ∧ w.db.RewritesTo old new db)
    (.bind select_built fun _ => rewritePathPrefix_built) fun w₁ hdb hm => ?_
  refine post_bind select_post ?_ fun _ _ _ => nofun
  rintro b _ ⟨⟨fs, rfl⟩, hb⟩
  rw [hb b rfl, ←hdb, ←hm]
  exact rewritePathPrefix_post (w := { w₁ with faults := fs })

private theorem renameVectors_of_faultFree {f : String → String} {embeddings : Option (Embeddings F)}
    (hf : w.FaultFree) (hm : w.mode = .readWrite)
    (h : w.db.embeddings.map (·.rename f) = embeddings.map some) :
    (if w.db.embeddings.isSome then renameVectors f else pure () : Conn F Unit) w =
      .ok () { w with db := { w.db with embeddings := embeddings } } := by
  cases he : w.db.embeddings <;> rw [he] at h
  case none =>
    rw [Option.map_eq_none_iff.mp h.symm]
    have hdb : { w.db with embeddings := none } = w.db := by rw [←he]
    rw [hdb]
    rfl
  case some e =>
    obtain ⟨e', rfl, hr⟩ := Option.map_eq_some_iff.mp h.symm
    have hr : e.rename f = some e' := hr.symm
    rw [Option.isSome_some, if_pos rfl, renameVectors, execute_of_faultFree hf hm, he]
    dsimp only
    rw [hr]

theorem rewritePathPrefix_of_faultFree (hf : w.FaultFree) (hm : w.mode = .readWrite)
    (h : w.db.RewritesTo old new db) :
    rewritePathPrefix old new w.db.embeddings.isSome w = .ok () { w with db := db } := by
  let w₁ : World F := { w with db := { w.db with units := db.units } }
  let w₂ : World F := { w with db := { w.db with units := db.units, embeddings := db.embeddings } }
  have hvectors : (if w.db.embeddings.isSome then renameVectors (rewriteId old new) else pure ()) w₁ =
      .ok () w₂ := renameVectors_of_faultFree (w := w₁) hf hm h.embeddings
  unfold rewritePathPrefix
  rw [bind_of_ok ((execute_of_faultFree hf hm).trans (by rw [h.units])), bind_of_ok hvectors,
    execute_of_faultFree (w := w₂) hf hm]
  dsimp only [w₂]
  rw [h.relations]
  obtain ⟨units, embeddings, relations, dependencies, indexMeta⟩ := db
  cases h.dependencies
  cases h.indexMeta
  rfl

theorem commitRewrittenPath_of_faultFree (hf : w.FaultFree) (hs : w.saved = none)
    (hm : w.mode = .readWrite) (h : w.db.RewritesTo old new db) :
    commitRewrittenPath old new w = .ok () { w with db := db } := by
  let w₁ : World F := { w with saved := some w.db }
  have hbegin : beginTransaction w = .ok () w₁ := by
    rw [beginTransaction, statement_of_faultFree hf, hs]
  have hbody : (do rewritePathPrefix old new (← embeddingsTableExists)) w₁ =
      .ok () { w₁ with db := db } := by
    rw [bind_of_ok (embeddingsTableExists_of_faultFree (w := w₁) hf)]
    exact rewritePathPrefix_of_faultFree (w := w₁) hf hm h
  have hcommit : commit { w₁ with db := db } = .ok () { w with db := db } := by
    rw [commit, statement_of_faultFree (w := { w₁ with db := db }) hf, ←hs]
  unfold commitRewrittenPath transaction
  rw [bind_of_ok hbegin]
  exact tryCatch_of_ok ((bind_of_ok hbody).trans hcommit)

-- Rewriting paths one after the other. When one of them fails, the ones before it are kept.
theorem forM_commitRewrittenPath_post {mapping : List (String × String)} :
    (mapping.forM fun m => commitRewrittenPath m.1 m.2).post (fun r w' =>
      (∀ e, r = .error e → ∃ done rest, mapping = done ++ rest ∧ (done ≠ [] → w.saved = none) ∧
        Action.Run (fun m => Db.RewritesTo m.1 m.2) done w.committed w'.committed) ∧
      (r = .ok () → Action.Run (fun m => Db.RewritesTo m.1 m.2) mapping w.committed w'.committed ∧
        Action.Run (fun m => Db.RewritesTo m.1 m.2) mapping w.db w'.db ∧
        (mapping = [] ∧ w' = w ∨ w.saved = none ∧ w.mode = .readWrite))) w := by
  induction mapping generalizing w
  case nil => exact post_pure ⟨nofun, fun _ => ⟨rfl, rfl, .inl ⟨rfl, rfl⟩⟩⟩
  case cons m ms ih =>
    refine post_bind commitRewrittenPath_post ?_ ?_
    case refine_2 =>
      intro e w₁ h
      exact ⟨fun _ _ => ⟨[], m :: ms, rfl, fun h => absurd rfl h, h.left e rfl⟩, nofun⟩
    case refine_1 =>
      rintro _ w₁ ⟨_, h⟩
      obtain ⟨hs, hs₁, hm, hw⟩ := h rfl
      have hc : w.committed = w.db := committed_eq hs
      have hc₁ : w₁.committed = w₁.db := committed_eq hs₁
      refine post_mono ih fun r w₂ h₂ => ⟨fun e he => ?_, fun hr => ?_⟩
      · obtain ⟨done, rest, rfl, _, hrun⟩ := h₂.left e he
        rw [hc]
        exact ⟨m :: done, rest, rfl, fun _ => hs, w₁.db, hw, hc₁ ▸ hrun⟩
      · obtain ⟨hrun, hrun', _⟩ := h₂.right hr
        rw [hc]
        exact ⟨⟨w₁.db, hw, hc₁ ▸ hrun⟩, ⟨w₁.db, hw, hrun'⟩, .inr ⟨hs, hm⟩⟩

private theorem metaSet_mode {k v : String} :
    (metaSet k v).post (fun r _ => r = .ok () → w.mode = .readWrite) w := by
  refine post_mono execute_post ?_
  rintro _ _ (⟨_, _, rfl⟩ | ⟨_, _, _, hm, _⟩)
  case inl => exact nofun
  case inr => exact fun _ => hm

private theorem indexMeta_of_run {mapping : List (String × String)} {db' : Db F}
    (h : Action.Run (fun m => Db.RewritesTo m.1 m.2) mapping db db') : db'.indexMeta = db.indexMeta :=
  (h.imp (S := fun _ _ _ => True) (I := fun s => s.indexMeta = db.indexMeta)
    (fun _ _ _ _ hs hr => ⟨trivial, hr.indexMeta.trans hs⟩) rfl).right

theorem commitPathMigration_post {mapping : List (String × String)} :
    (commitPathMigration mapping).post (fun r w' =>
      (∀ e, r = .error e → ∃ done rest, mapping = done ++ rest ∧ (done ≠ [] → w.saved = none) ∧
        Action.Run (fun m => Db.RewritesTo m.1 m.2) done w.committed w'.committed) ∧
      (r = .ok () → w.mode = .readWrite ∧ w.db.indexMeta.isSome ∧ (mapping ≠ [] → w.saved = none) ∧
        ∃ db, Action.Run (fun m => Db.RewritesTo m.1 m.2) mapping w.db db ∧
          w'.db = db.setMeta PATHS_MIGRATED_KEY "1")) w := by
  refine post_bind forM_commitRewrittenPath_post ?_ fun _ _ h => ⟨h.left, nofun⟩
  rintro _ w₁ ⟨-, h⟩
  obtain ⟨hrun, hrun', hw⟩ := h rfl
  refine post_mono (post_and metaSet_post metaSet_mode) ?_
  rintro r w₂ ⟨⟨⟨fs, rfl⟩, e, rfl⟩ | ⟨fs, hi, rfl, rfl⟩, hm⟩
  case inl =>
    refine ⟨fun _ _ => ⟨mapping, [], by simp, fun h => ?_, hrun⟩, nofun⟩
    exact (hw.resolve_left fun hw => h hw.left).left
  case inr =>
    rw [indexMeta_of_run hrun'] at hi
    refine ⟨nofun, fun _ => ?_⟩
    obtain ⟨rfl, rfl⟩ | ⟨hs, hm⟩ := hw
    case inl => exact ⟨hm rfl, hi, fun h => absurd rfl h, w₁.db, rfl, rfl⟩
    case inr => exact ⟨hm, hi, fun _ => hs, w₁.db, hrun', rfl⟩

theorem commitPathMigration_of_faultFree {mapping : List (String × String)} (hf : w.FaultFree)
    (hs : mapping ≠ [] → w.saved = none) (hm : w.mode = .readWrite) (hi : w.db.indexMeta.isSome)
    (h : Action.Run (fun m => Db.RewritesTo m.1 m.2) mapping w.db db) :
    commitPathMigration mapping w = .ok () { w with db := db.setMeta PATHS_MIGRATED_KEY "1" } := by
  have hall : ∀ w : World F, w.FaultFree → (mapping ≠ [] → w.saved = none) → w.mode = .readWrite →
      Action.Run (fun m => Db.RewritesTo m.1 m.2) mapping w.db db →
      (mapping.forM fun m => commitRewrittenPath m.1 m.2) w = .ok () { w with db := db } := by
    clear hf hs hm hi h
    intro w hf hs hm h
    induction mapping generalizing w
    case nil => cases h; rfl
    case cons m ms ih =>
      obtain ⟨db₁, h₁, h⟩ := h
      have hs := hs (List.cons_ne_nil _ _)
      refine (bind_of_ok (commitRewrittenPath_of_faultFree hf hs hm h₁)).trans ?_
      exact ih { w with db := db₁ } hf (fun _ => hs) hm h
  refine (bind_of_ok (hall w hf hs hm h)).trans ?_
  refine metaSet_of_ready (w := { w with db := db }) ⟨hf, hm, ?_⟩
  rw [indexMeta_of_run h]
  exact hi

end Conn
