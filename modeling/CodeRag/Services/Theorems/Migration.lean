import CodeRag.Services.Theorems.Claims
import CodeRag.Storage.Theorems.Rewrite

-- The migration of stored paths, whose order does not matter unless one of the paths fails.

namespace PathMigration

variable {F : Floats} {db db' : Db F} {mapping : List (String × String)} {m m' : String × String}

section Groups

variable {groups : Groups} {path hash : String}

theorem addHash_paths : (addHash groups path hash).map Prod.fst =
    if path ∈ groups.map Prod.fst then groups.map Prod.fst else groups.map Prod.fst ++ [path] := by
  induction groups
  case nil => rfl
  case cons group groups ih =>
    obtain ⟨p, hs⟩ := group
    unfold addHash
    by_cases hp : p = path
    case pos => simp [hp]
    case neg =>
      rw [if_neg hp, List.map_cons, ih]
      simp only [List.map_cons, List.mem_cons, Ne.symm hp, false_or]
      split <;> rfl

theorem groupsOf_paths {units : List KnowledgeUnit} :
    ((groupsOf units).map Prod.fst).Nodup ∧ ∀ path ∈ (groupsOf units).map Prod.fst,
      Path.isAbsolute path ∧ ∃ u ∈ units, u.path = path := by
  induction units using List.reverseRecOn
  case nil => exact ⟨.nil, nofun⟩
  case append_singleton units u ih =>
    obtain ⟨hn, hp⟩ := ih
    have hold : ∀ path ∈ (groupsOf units).map Prod.fst,
        Path.isAbsolute path ∧ ∃ u' ∈ units ++ [u], u'.path = path :=
      fun path h => (hp path h).imp_right fun ⟨u', hu, he⟩ => ⟨u', List.mem_append_left _ hu, he⟩
    unfold groupsOf at hn hold ⊢
    rw [List.foldl_append, List.foldl_cons, List.foldl_nil]
    split
    case isFalse => exact ⟨hn, hold⟩
    case isTrue ha =>
      rw [addHash_paths]
      split
      case isTrue => exact ⟨hn, hold⟩
      case isFalse hm =>
        refine ⟨hn.append (List.nodup_singleton _) (by simpa using hm), fun path h => ?_⟩
        obtain h | h := List.mem_append.mp h
        case inl => exact hold path h
        case inr =>
          obtain rfl := List.mem_singleton.mp h
          exact ⟨ha, u, by simp, rfl⟩

end Groups

-- What the mapping of a migration is like.
structure Migration (db : Db F) (mapping : List (String × String)) : Prop where
  olds     : (mapping.map Prod.fst).Nodup
  stored   : ∀ m ∈ mapping, ∃ u ∈ db.units, u.path = m.1
  absolute : ∀ m ∈ mapping, Path.isAbsolute m.1
  relative : ∀ m ∈ mapping, Path.isAbsolute m.2 = false

theorem Follows.migration {fs : FileSystem} {root : String} {units : List KnowledgeUnit}
    {files : List (String × Multiset String)} (hu : ∀ u ∈ units, u.toUnitRow ∈ db.units)
    (h : Follows fs (groupsOf units) root files mapping) : Migration db mapping where
  olds         := h.olds
  stored m hm  := by
    obtain ⟨group, hg, he⟩ := h.stored m hm
    obtain ⟨_, u, hmem, hp⟩ := groupsOf_paths.right group.1 (List.mem_map_of_mem hg)
    exact ⟨u.toUnitRow, hu u hmem, hp.trans he⟩
  absolute m hm := by
    obtain ⟨group, hg, he⟩ := h.stored m hm
    exact he ▸ (groupsOf_paths.right group.1 (List.mem_map_of_mem hg)).left
  relative m hm := by
    cases hp : fs.projectRelativePosix m.1 root
    case ok rel =>
      rw [h.own m hm rel hp]
      exact FileSystem.projectRelativePosix_not_absolute hp
    case error e =>
      obtain ⟨file, _, _, hr, _⟩ := h.eligible m hm ⟨e, hp⟩
      exact FileSystem.projectRelativePosix_not_absolute hr

theorem claimRelativePaths_migration {fs : FileSystem} {root : String} {units : List KnowledgeUnit}
    {files : List (String × Multiset String)} (hu : ∀ u ∈ units, u.toUnitRow ∈ db.units) :
    Migration db (claimRelativePaths fs (groupsOf units) root files) := by
  have hown : Owners fs root (groupsOf units) _ := owners_foldl
    (fun group hg => (groupsOf_paths.right group.1 (List.mem_map_of_mem hg)).left) groupsOf_paths.left
  exact ((claimed_foldl hown).follows hown).migration hu

-- The id of a unit with a relative path does not begin with an absolute path.
theorem not_hasPrefix_of_absolute {old new q : String} (ho : Path.isAbsolute old)
    (hn : Path.isAbsolute new = false) : (new ++ ":" ++ q).hasPrefix (old ++ ":") = false := by
  rw [Bool.eq_false_iff]
  intro h
  obtain ⟨r, hr⟩ := String.hasPrefix_iff.mp h
  obtain ⟨p, rfl⟩ := String.hasPrefix_iff.mp ho
  rw [String.append_assoc', String.append_assoc', String.append_assoc'] at hr
  obtain ⟨s, hs⟩ | ⟨s, hs⟩ := String.append_eq_append_or hr
  case inr =>
    rw [hs] at hn
    exact Bool.false_ne_true (hn.symm.trans String.hasPrefix_append)
  case inl =>
    -- `new` is not longer than a slash, and it is not the empty path, as an id begins with a colon.
    have hslash : "/".toList = ['/'] := rfl
    have hl := congrArg String.toList hs
    have hr := congrArg String.toList hr
    rw [String.toList_append, hslash] at hl
    cases hc : new.toList <;> rw [hc] at hl
    case nil =>
      simp only [String.toList_append, hc, List.nil_append] at hr
      cases hr
    case cons c cs =>
      obtain ⟨rfl, _⟩ := List.cons.inj hl
      have hp : new = "/" ++ String.ofList cs := by
        rw [←String.toList_inj, String.toList_append, hc, hslash, String.toList_ofList]
        rfl
      rw [hp] at hn
      exact Bool.false_ne_true (hn.symm.trans String.hasPrefix_append)

namespace Migration

private theorem separate_olds (h : Migration db mapping) (hd : db.Named)
    (hs : ∀ m ∈ mapping, db.Separate m.1) (hm : m ∈ mapping) (hm' : m' ∈ mapping) {r : String}
    (he : m'.1 ++ ":" = m.1 ++ ":" ++ r) : m = m' := by
  obtain ⟨u, hu, hp⟩ := h.stored m' hm'
  obtain ⟨q, hq⟩ := hd.units u hu
  have hpre : u.id.hasPrefix (m.1 ++ ":") := by
    rw [hq, hp, he, String.append_assoc']
    exact String.hasPrefix_append
  exact List.inj_on_of_nodup_map h.olds hm hm' ((hs m hm u hu hpre).symm.trans hp)

theorem apart (h : Migration db mapping) (hd : db.Named) (hs : ∀ m ∈ mapping, db.Separate m.1)
    (hm : m ∈ mapping) (hm' : m' ∈ mapping) (hne : m ≠ m') : Apart m m' where
  left _  := not_hasPrefix_of_absolute (h.absolute m' hm') (h.relative m hm)
  right _ := not_hasPrefix_of_absolute (h.absolute m hm) (h.relative m' hm')
  olds i hi := by
    rw [Bool.eq_false_iff]
    intro hi'
    obtain ⟨q, rfl⟩ := String.hasPrefix_iff.mp hi
    obtain ⟨q', he⟩ := String.hasPrefix_iff.mp hi'
    obtain ⟨r, hr⟩ | ⟨r, hr⟩ := String.append_eq_append_or he
    case inl => exact hne (h.separate_olds hd hs hm hm' hr)
    case inr => exact hne (h.separate_olds hd hs hm' hm hr).symm

-- What is assumed of the tables still holds after one of the paths is rewritten.
theorem keeps (h : Migration db mapping) {db₁ db₂ : Db F} (hm : m ∈ mapping)
    (hn : db₁.Named) (hs : ∀ m ∈ mapping, db₁.Separate m.1) (hr : db₁.Rewritten m.1 m.2 db₂) :
    db₂.Named ∧ ∀ m ∈ mapping, db₂.Separate m.1 := by
  have hmoved : ∀ u' ∈ db₂.units, (u' ∈ db₁.units) ∨ u'.path = m.2 ∧ ∃ q, u'.id = m.2 ++ ":" ++ q := by
    intro u' hu'
    obtain ⟨u, hu, rfl⟩ := hr.units.surjOn hu'
    dsimp only
    unfold UnitRow.movedTo
    split
    case isTrue  => exact .inr ⟨rfl, _, rfl⟩
    case isFalse => exact .inl hu
  refine ⟨⟨fun u hu => ?_, hr.owned⟩, fun m' hm' u hu hp => ?_⟩
  · obtain hu | ⟨hp, hq⟩ := hmoved u hu
    · exact hn.units u hu
    · exact hp ▸ hq
  · obtain hu | ⟨_, q, hq⟩ := hmoved u hu
    · exact hs m' hm' u hu hp
    · rw [hq, not_hasPrefix_of_absolute (h.absolute m' hm') (h.relative m hm)] at hp
      cases hp

theorem rewritten (h : Migration db mapping) {mapping' : List (String × String)} {db₁ : Db F}
    (hsub : ∀ m ∈ mapping', m ∈ mapping) (hn : db.Named) (hs : ∀ m ∈ mapping, db.Separate m.1)
    (hrun : Action.Run (fun m => Db.RewritesTo m.1 m.2) mapping' db db₁) :
    Action.Run (fun m => Db.Rewritten m.1 m.2) mapping' db db₁ := by
  refine (hrun.imp (I := fun db => db.Named ∧ ∀ m ∈ mapping, db.Separate m.1) ?_ ⟨hn, hs⟩).left
  rintro m hm db₁ db₂ ⟨hn, hs⟩ hr
  have hw := hr.rewritten hn (hs m (hsub m hm))
  exact ⟨hw, h.keeps (hsub m hm) hn hs hw⟩

end Migration

open Conn EStateM World

section Claims

variable {w : World F}

-- The rewrite changes nothing, or the path takes along everything that is attached to it.
def Moves (old new : String) (w : World F) : Prop :=
  (commitRewrittenPath old new).post (fun r w' =>
    (∀ e, r = .error e → w'.committed = w.committed) ∧
    (r = .ok () → w.db.Rewritten old new w'.db)) w

-- When all paths can be rewritten, they can be in any order, and the tables are the same then.
def OrderFree (mapping : List (String × String)) (w : World F) : Prop :=
  ∀ w₁, commitPathMigration mapping w = .ok () w₁ →
    (∃ db, Action.Run (fun m => Db.Rewritten m.1 m.2) mapping w.db db ∧
      w₁.db = db.setMeta PATHS_MIGRATED_KEY "1") ∧
    ∀ mapping', mapping'.Perm mapping →
      (∃ w₂, commitPathMigration mapping' (w.withFaults fun _ => false) = .ok () w₂) ∧
      ∀ φ w₂, commitPathMigration mapping' (w.withFaults φ) = .ok () w₂ → w₂.db = w₁.db

-- When a path cannot be rewritten, the paths before it are.
def KeepsEarlier (mapping : List (String × String)) (w : World F) : Prop :=
  ∀ e w', commitPathMigration mapping w = .error e w' → ∃ done rest, mapping = done ++ rest ∧
    Action.Run (fun m => Db.Rewritten m.1 m.2) done w.committed w'.committed

theorem moves {old new : String} (hn : w.db.Named) (hs : w.db.Separate old) : Moves old new w :=
  post_mono commitRewrittenPath_post fun _ _ h =>
    ⟨h.left, fun hr => (h.right hr).right.right.right.rewritten hn hs⟩

namespace Migration

theorem orderFree (h : Migration w.db mapping) (hn : w.db.Named)
    (hs : ∀ m ∈ mapping, w.db.Separate m.1) : OrderFree mapping w := by
  intro w₁ h₁
  have hp : (commitPathMigration mapping).post _ w := commitPathMigration_post
  rw [EStateM.post, h₁] at hp
  obtain ⟨hm, hi, hnone, db, hrun, hdb⟩ := hp.right rfl
  refine ⟨⟨db, h.rewritten (fun _ => id) hn hs hrun, hdb⟩, fun mapping' hperm => ?_⟩
  have hrun' := hrun.perm hperm.symm fun a ha b hb hne _ _ _ =>
    Db.RewritesTo.comm (h.apart hn hs ha hb hne)
  refine ⟨⟨_, commitPathMigration_of_faultFree (w := w.withFaults fun _ => false) rfl ?_ hm hi hrun'⟩,
    fun φ w₂ h₂ => ?_⟩
  · exact fun hne => hnone fun he => hne (List.perm_nil.mp (he ▸ hperm))
  · have hp : (commitPathMigration mapping').post _ (w.withFaults φ) := commitPathMigration_post
    rw [EStateM.post, h₂] at hp
    obtain ⟨_, _, _, db', hrun₂, hdb'⟩ := hp.right rfl
    have heq : db' = db := hrun₂.unique (fun _ _ _ _ _ h h' => h.unique h') hrun'
    rw [show w₂.db = _ from hdb', show w₁.db = _ from hdb, heq]

theorem keepsEarlier (h : Migration w.db mapping) (hn : w.db.Named)
    (hs : ∀ m ∈ mapping, w.db.Separate m.1) : KeepsEarlier mapping w := by
  intro e w' h'
  have hp : (commitPathMigration mapping).post _ w := commitPathMigration_post
  rw [EStateM.post, h'] at hp
  obtain ⟨done, rest, rfl, hnone, hrun⟩ := hp.left e rfl
  refine ⟨done, rest, rfl, ?_⟩
  cases done
  case nil => exact hrun
  case cons m ms =>
    have hc : w.committed = w.db := committed_eq (hnone (List.cons_ne_nil _ _))
    rw [hc] at hrun ⊢
    exact h.rewritten (fun m hm => List.mem_append_left _ hm) hn hs hrun

end Migration

theorem paths_rewritten (hn : w.db.Named) :
    (∀ old new, w.db.Separate old → Moves old new w) ∧
    ∀ mapping, Migration w.db mapping → (∀ m ∈ mapping, w.db.Separate m.1) →
      OrderFree mapping w ∧ KeepsEarlier mapping w :=
  ⟨fun _ _ => moves hn, fun _ h hs => ⟨h.orderFree hn hs, h.keepsEarlier hn hs⟩⟩

end Claims

section Sample

-- A unit without texts.
def namedUnit (path name hash : String) : UnitRow where
  id        := path ++ ":" ++ name
  kind      := .function
  name      := name
  path      := path
  signature := none
  docstring := none
  summary   := none
  codeHash  := hash
  tags      := []
  metadata  := []

def indexOf (units : List UnitRow) (h : (units.map key).Nodup) (relations : Table Relation) :
    Db naturals where
  units        := ⟨units, h⟩
  embeddings   := some {
    width      := some 1
    rows       := ⟨units.map fun u => { id := u.id, vec := [u.codeHash.length] }, by
      rwa [List.map_map]⟩
    width_size := by
      rintro n ⟨⟩
      exact .one
    rows_width := by
      intro n hn r hr
      obtain ⟨u, _, rfl⟩ := List.mem_map.mp hr
      exact Option.some.inj hn }
  relations    := relations
  dependencies := .empty
  indexMeta    := some .empty

def openIndex (db : Db naturals) : World naturals :=
  .connect db .readWrite (some 1) (fun _ => false) (fun _ => false)

theorem indexOf_named {units : List UnitRow} {h : (units.map key).Nodup} {relations : Table Relation}
    (hn : units.all fun u => u.id = u.path ++ ":" ++ u.name) :
    (indexOf units h relations).Named where
  units u hu := ⟨u.name, by simpa using List.all_eq_true.mp hn u hu⟩
  vectors i hi := by
    obtain ⟨v, hv⟩ := Option.isSome_iff_exists.mp hi
    obtain ⟨_, ⟨⟩, r, hr, rfl, _⟩ := Db.vec?_eq_some_iff.mp hv
    obtain ⟨u, hu, rfl⟩ := List.mem_map.mp hr
    exact ⟨u, hu, rfl⟩

-- A call from one file to another one.
def sampleRelations : Table Relation :=
  Table.empty.insert { fromId := "/p/a:f", toId := "/q/b:g", type := .calls }

def sampleUnits : List UnitRow :=
  [namedUnit "/p/a" "f" "x", namedUnit "/q/b" "g" "y"]

def sampleIndex : Db naturals :=
  indexOf sampleUnits (by decide +kernel) sampleRelations

-- The file `a` was indexed once more since then.
def crowdedIndex : Db naturals :=
  indexOf (namedUnit "a" "f" "z" :: sampleUnits) (by decide +kernel) sampleRelations

def listed (units : List UnitRow) : List KnowledgeUnit :=
  units.map fun u => { toUnitRow := u, relations := [] }

def samplePaths : List (String × String) :=
  claimRelativePaths (Sample.fileSystem []) (groupsOf (listed sampleUnits)) "/p" sampleFiles

theorem samplePaths_migration {db : Db naturals} (h : ∀ u ∈ sampleUnits, u ∈ db.units) :
    Migration db samplePaths := by
  refine claimRelativePaths_migration fun u hu => ?_
  obtain ⟨row, hr, rfl⟩ := List.mem_map.mp hu
  exact h row hr

theorem samplePaths_separate {units : List UnitRow} {h : (units.map key).Nodup}
    (hs : samplePaths.all fun m => units.all fun u => !u.id.hasPrefix (m.1 ++ ":") || u.path = m.1) :
    ∀ m ∈ samplePaths, (indexOf units h sampleRelations).Separate m.1 := by
  intro m hm u hu hp
  have hu := List.all_eq_true.mp (List.all_eq_true.mp hs m hm) u hu
  rw [hp] at hu
  simpa using hu

theorem paths_rewritten_sample : Moves "/p/a" "a" (openIndex sampleIndex) ∧
    OrderFree samplePaths (openIndex sampleIndex) ∧
    KeepsEarlier samplePaths (openIndex sampleIndex) := by
  have hn : (openIndex sampleIndex).db.Named := indexOf_named (by decide +kernel)
  have hs : ∀ m ∈ samplePaths, (openIndex sampleIndex).db.Separate m.1 :=
    samplePaths_separate (by decide +kernel)
  have hm : Migration (openIndex sampleIndex).db samplePaths := samplePaths_migration fun _ => id
  have ha : ("/p/a", "a") ∈ samplePaths := by decide +kernel
  exact ⟨(paths_rewritten hn).left _ _ (hs _ ha), (paths_rewritten hn).right _ hm hs⟩

-- The first path cannot be rewritten, as its unit is already there under the new path.
theorem not_orderFree : crowdedIndex.Named ∧ Migration crowdedIndex samplePaths ∧
    (∀ m ∈ samplePaths, crowdedIndex.Separate m.1) ∧
    ¬(commitPathMigration samplePaths (openIndex crowdedIndex)).state.committed.Same
      (commitPathMigration samplePaths.reverse (openIndex crowdedIndex)).state.committed := by
  refine ⟨indexOf_named (by decide +kernel), samplePaths_migration fun _ => .tail _,
    samplePaths_separate (by decide +kernel), fun h => ?_⟩
  have hfirst : (commitPathMigration samplePaths (openIndex crowdedIndex)).state.committed.units.rows.map
      (·.id) = ["a:f", "/p/a:f", "/q/b:g"] := by decide +kernel
  have hsecond : (commitPathMigration samplePaths.reverse
      (openIndex crowdedIndex)).state.committed.units.rows.map (·.id) = ["a:f", "/p/a:f", "b:g"] := by
    decide +kernel
  have hb : "b:g" ∈ ["a:f", "/p/a:f", "b:g"] := by decide
  rw [←hsecond] at hb
  obtain ⟨u, hu, he⟩ := List.mem_map.mp hb
  have hu := List.mem_map_of_mem (f := (·.id)) ((h.units u).mp hu)
  rw [hfirst] at hu
  rw [he] at hu
  revert hu
  decide

end Sample
end PathMigration
