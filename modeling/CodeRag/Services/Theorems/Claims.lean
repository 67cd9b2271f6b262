import CodeRag.Lib.Matching
import CodeRag.Services.PathMigration
import CodeRag.Services.Theorems.Sample

-- Which stored paths the migration maps to which files.

namespace PathMigration

variable {fs : FileSystem} {root : String} {groups : Groups} {files : List (String × Multiset String)}
variable {c c₀ : Claims} {old rel : String}

def Outside (fs : FileSystem) (root old : String) : Prop :=
  ∃ e, fs.projectRelativePosix old root = .error e

instance : Decidable (Outside fs root old) :=
  match h : fs.projectRelativePosix old root with
  | .ok _    => isFalse fun ⟨_, he⟩ => by cases h.symm.trans he
  | .error e => isTrue ⟨e, h⟩

-- The relative path belongs to a stored path under the root.
def Owned (fs : FileSystem) (root : String) (groups : Groups) (rel : String) : Prop :=
  ∃ group ∈ groups, fs.projectRelativePosix group.1 root = .ok rel

-- The first phase, after the groups `groups`.
structure Owners (fs : FileSystem) (root : String) (groups : Groups) (c : Claims) : Prop where
  pending : ∀ group, group ∈ c.pending ↔ group ∈ groups ∧ Outside fs root group.1
  mapping : ∀ m ∈ c.mapping, (∃ group ∈ groups, group.1 = m.1) ∧
    fs.projectRelativePosix m.1 root = .ok m.2
  taken   : ∀ rel, rel ∈ c.taken ↔ rel ∈ c.mapping.map Prod.snd
  owned   : ∀ rel, Owned fs root groups rel → rel ∈ c.taken
  olds    : (c.mapping.map Prod.fst).Nodup
  rels    : (c.mapping.map Prod.snd).Nodup

theorem Owners.nil : Owners fs root [] { mapping := [], taken := [], pending := [] } where
  pending := by simp
  mapping := nofun
  taken   := by simp
  owned   := by rintro rel ⟨_, h, _⟩; cases h
  olds    := .nil
  rels    := .nil

theorem Owners.addGroup {group : String × Multiset String} (h : Owners fs root groups c)
    (ha : Path.isAbsolute group.1) (hn : group.1 ∉ groups.map Prod.fst) :
    Owners fs root (groups ++ [group]) (c.addGroup fs root group) := by
  have hown : ∀ rel, Owned fs root (groups ++ [group]) rel →
      rel ∈ c.taken ∨ fs.projectRelativePosix group.1 root = .ok rel := by
    rintro rel ⟨g, hg, hr⟩
    obtain hg | hg := List.mem_append.mp hg
    case inl => exact .inl (h.owned rel ⟨g, hg, hr⟩)
    case inr => exact .inr (List.mem_singleton.mp hg ▸ hr)
  have hmap : ∀ m ∈ c.mapping, (∃ g ∈ groups ++ [group], g.1 = m.1) ∧
      fs.projectRelativePosix m.1 root = .ok m.2 :=
    fun m hm => ⟨(h.mapping m hm).left.imp fun g hg => ⟨List.mem_append_left _ hg.left, hg.right⟩,
      (h.mapping m hm).right⟩
  unfold Claims.addGroup
  rw [if_pos ha]
  split
  case h_1 e he =>
    refine ⟨fun g => ?_, hmap, h.taken, fun rel hr => ?_, h.olds, h.rels⟩
    · rw [List.mem_append, List.mem_append, h.pending, List.mem_singleton]
      constructor
      case mp =>
        rintro (⟨hg, ho⟩ | rfl)
        · exact ⟨.inl hg, ho⟩
        · exact ⟨.inr rfl, e, he⟩
      case mpr => exact fun ⟨hg, ho⟩ => hg.imp_left fun hg => ⟨hg, ho⟩
    · exact (hown rel hr).resolve_right fun hr => by cases he.symm.trans hr
  case h_2 rel he =>
    have hpend : ∀ g, g ∈ c.pending ↔ g ∈ groups ++ [group] ∧ Outside fs root g.1 := by
      intro g
      rw [h.pending, List.mem_append, List.mem_singleton]
      refine ⟨fun ⟨hg, ho⟩ => ⟨.inl hg, ho⟩, fun ⟨hg, e, ho⟩ => ⟨hg.resolve_right ?_, e, ho⟩⟩
      rintro rfl
      cases he.symm.trans ho
    split
    case isTrue ht =>
      refine ⟨hpend, hmap, h.taken, fun r hr => ?_, h.olds, h.rels⟩
      obtain hr | hr := hown r hr
      · exact hr
      · exact Except.ok.inj (he.symm.trans hr) ▸ ht
    case isFalse ht =>
      refine ⟨hpend, fun m hm => ?_, fun r => ?_, fun r hr => ?_, ?_, ?_⟩
      · obtain hm | hm := List.mem_append.mp hm
        · exact hmap m hm
        · obtain rfl := List.mem_singleton.mp hm
          exact ⟨⟨group, by simp, rfl⟩, he⟩
      · simp [h.taken, or_comm]
      · obtain hr | hr := hown r hr
        · exact .tail _ hr
        · exact Except.ok.inj (he.symm.trans hr) ▸ .head _
      · rw [List.map_append]
        refine h.olds.append (List.nodup_singleton _) ?_
        simp only [List.map_cons, List.map_nil, List.disjoint_singleton]
        intro hm
        obtain ⟨m, hm, hi⟩ := List.mem_map.mp hm
        obtain ⟨g, hg, hi'⟩ := (h.mapping m hm).left
        exact hn (List.mem_map.mpr ⟨g, hg, hi'.trans hi⟩)
      · rw [List.map_append]
        refine h.rels.append (List.nodup_singleton _) ?_
        simpa [h.taken] using ht

theorem owners_foldl (ha : ∀ group ∈ groups, Path.isAbsolute group.1)
    (hn : (groups.map Prod.fst).Nodup) : Owners fs root groups
      (groups.foldl (Claims.addGroup fs root) { mapping := [], taken := [], pending := [] }) := by
  induction groups using List.reverseRecOn
  case nil => exact .nil
  case append_singleton groups group ih =>
    rw [List.map_append, List.map_singleton, ←List.concat_eq_append, List.nodup_concat] at hn
    rw [List.foldl_append]
    exact (ih (fun g hg => ha g (List.mem_append_left _ hg)) hn.right).addGroup
      (ha group (by simp)) hn.left

-- The second phase, which starts with the claims `c₀`, after the files `files`.
structure Claimed (fs : FileSystem) (root : String) (c₀ : Claims)
    (files : List (String × Multiset String)) (c : Claims) : Prop where
  pending   : c.pending = c₀.pending
  kept      : ∀ m ∈ c₀.mapping, m ∈ c.mapping
  mapping   : ∀ m ∈ c.mapping, m ∈ c₀.mapping ∨ m.2 ∉ c₀.taken ∧ ∃ file ∈ files,
    (m.1, file.2) ∈ c₀.pending ∧ fs.projectRelativePosix file.1 root = .ok m.2
  taken     : ∀ rel, rel ∈ c.taken ↔ rel ∈ c.mapping.map Prod.snd
  saturated : ∀ file ∈ files, ∀ rel, fs.projectRelativePosix file.1 root = .ok rel →
    rel ∈ c.taken ∨ ∀ group ∈ c₀.pending, group.2 = file.2 → group.1 ∈ c.mapping.map Prod.fst
  olds      : (c.mapping.map Prod.fst).Nodup
  rels      : (c.mapping.map Prod.snd).Nodup

theorem Claimed.nil (h : Owners fs root groups c₀) : Claimed fs root c₀ [] c₀ where
  pending   := rfl
  kept _    := id
  mapping _ := .inl
  taken     := h.taken
  saturated := nofun
  olds      := h.olds
  rels      := h.rels

-- A file that claims nothing.
private theorem Claimed.skip {file : String × Multiset String} (h : Claimed fs root c₀ files c)
    (hs : ∀ rel, fs.projectRelativePosix file.1 root = .ok rel →
      rel ∈ c.taken ∨ ∀ group ∈ c₀.pending, group.2 = file.2 → group.1 ∈ c.mapping.map Prod.fst) :
    Claimed fs root c₀ (files ++ [file]) c :=
  { h with
    mapping   := fun m hm => (h.mapping m hm).imp_right fun ⟨ht, f, hf, hp⟩ =>
      ⟨ht, f, List.mem_append_left _ hf, hp⟩
    saturated := fun f hf => by
      obtain hf | hf := List.mem_append.mp hf
      case inl => exact h.saturated f hf
      case inr => exact List.mem_singleton.mp hf ▸ hs }

theorem Claimed.addFile {file : String × Multiset String} (h : Claimed fs root c₀ files c)
    (h₀ : ∀ rel, rel ∈ c₀.taken ↔ rel ∈ c₀.mapping.map Prod.snd) :
    Claimed fs root c₀ (files ++ [file]) (c.addFile fs root file) := by
  unfold Claims.addFile
  split
  case h_1 e he => exact h.skip fun rel hr => by cases he.symm.trans hr
  case h_2 rel he =>
    split
    case isTrue ht => exact h.skip fun r hr => .inl (Except.ok.inj (he.symm.trans hr) ▸ ht)
    case isFalse ht =>
      unfold Claims.claimant
      split
      case h_1 hc =>
        refine h.skip fun r _ => .inr fun g hg heq => ?_
        have := List.find?_eq_none.mp hc g (h.pending ▸ hg)
        by_contra hn
        exact this (by simpa [heq] using hn)
      case h_2 group hc =>
        have hfree := List.find?_some hc
        simp only [decide_eq_true_eq] at hfree
        have hg : group ∈ c₀.pending := h.pending ▸ List.mem_of_find?_eq_some hc
        have hrel : rel ∉ c₀.taken := by
          rw [h₀]
          intro hr
          obtain ⟨m, hm, rfl⟩ := List.mem_map.mp hr
          exact ht ((h.taken _).mpr (List.mem_map_of_mem (h.kept m hm)))
        refine ⟨h.pending, fun m hm => List.mem_append_left _ (h.kept m hm), fun m hm => ?_,
          fun r => ?_, fun f hf r hr => ?_, ?_, ?_⟩
        · obtain hm' | hm' := List.mem_append.mp hm
          · exact (h.mapping m hm').imp_right fun ⟨hn, f, hf, hp⟩ =>
              ⟨hn, f, List.mem_append_left _ hf, hp⟩
          · obtain rfl := List.mem_singleton.mp hm'
            exact .inr ⟨hrel, file, by simp, by rw [←hfree.right]; exact hg, he⟩
        · simp [h.taken, or_comm]
        · obtain hf | hf := List.mem_append.mp hf
          · refine (h.saturated f hf r hr).imp (.tail _) fun hall g hg heq => ?_
            rw [List.map_append]
            exact List.mem_append_left _ (hall g hg heq)
          · obtain rfl := List.mem_singleton.mp hf
            exact .inl (Except.ok.inj (he.symm.trans hr) ▸ .head _)
        · rw [List.map_append]
          refine h.olds.append (List.nodup_singleton _) ?_
          simpa using hfree.left
        · rw [List.map_append]
          refine h.rels.append (List.nodup_singleton _) ?_
          simpa [h.taken] using ht

theorem claimed_foldl (h : Owners fs root groups c₀) :
    Claimed fs root c₀ files (files.foldl (Claims.addFile fs root) c₀) := by
  induction files using List.reverseRecOn
  case nil => exact .nil h
  case append_singleton files file ih =>
    rw [List.foldl_append]
    exact ih.addFile h.taken

-- The old path may be mapped to the relative path: they have the same hashes, and none of the stored
-- paths under the root owns the relative path.
def Eligible (fs : FileSystem) (groups : Groups) (root : String)
    (files : List (String × Multiset String)) (old rel : String) : Prop :=
  ∃ file ∈ files, (old, file.2) ∈ groups ∧ fs.projectRelativePosix file.1 root = .ok rel ∧
    ¬Owned fs root groups rel

-- The rules for a mapping.
structure Follows (fs : FileSystem) (groups : Groups) (root : String)
    (files : List (String × Multiset String)) (mapping : List (String × String)) : Prop where
  olds     : (mapping.map Prod.fst).Nodup
  rels     : (mapping.map Prod.snd).Nodup
  stored   : ∀ m ∈ mapping, ∃ group ∈ groups, group.1 = m.1
  own      : ∀ m ∈ mapping, ∀ rel, fs.projectRelativePosix m.1 root = .ok rel → m.2 = rel
  claimed  : ∀ rel, Owned fs root groups rel →
    ∃! old, (old, rel) ∈ mapping ∧ fs.projectRelativePosix old root = .ok rel
  eligible : ∀ m ∈ mapping, Outside fs root m.1 → Eligible fs groups root files m.1 m.2

-- The part of a mapping that is about paths outside of the root.
def outsideOf (fs : FileSystem) (root : String) (mapping : List (String × String)) :
    List (String × String) :=
  mapping.filter fun m => Outside fs root m.1

theorem mem_outsideOf {m : String × String} {mapping : List (String × String)} :
    m ∈ outsideOf fs root mapping ↔ m ∈ mapping ∧ Outside fs root m.1 := by
  rw [outsideOf, List.mem_filter, decide_eq_true_eq]

theorem Claimed.follows (h₀ : Owners fs root groups c₀) (h : Claimed fs root c₀ files c) :
    Follows fs groups root files c.mapping where
  olds   := h.olds
  rels   := h.rels
  stored := fun m hm => by
    obtain hm | ⟨_, file, _, hp, _⟩ := h.mapping m hm
    case inl => exact (h₀.mapping m hm).left
    case inr => exact ⟨_, ((h₀.pending _).mp hp).left, rfl⟩
  own := fun m hm rel hr => by
    obtain hm | ⟨_, file, _, hp, _⟩ := h.mapping m hm
    case inl => exact Except.ok.inj ((h₀.mapping m hm).right.symm.trans hr)
    case inr =>
      have ⟨e, he⟩ := ((h₀.pending _).mp hp).right
      cases he.symm.trans hr
  claimed := fun rel hr => by
    have ⟨m, hm, he⟩ := List.mem_map.mp ((h₀.taken rel).mp (h₀.owned rel hr))
    refine ⟨m.1, ⟨he ▸ h.kept m hm, he ▸ (h₀.mapping m hm).right⟩, fun old ho => ?_⟩
    exact congrArg Prod.fst (List.inj_on_of_nodup_map h.rels ho.left (h.kept m hm) he.symm)
  eligible := fun m hm ⟨e, he⟩ => by
    obtain hm | ⟨hn, file, hf, hp, hr⟩ := h.mapping m hm
    case inl => cases he.symm.trans (h₀.mapping m hm).right
    case inr => exact ⟨file, hf, ((h₀.pending _).mp hp).left, hr, fun ho => hn (h₀.owned _ ho)⟩

-- An outside path is left over only when each relative path that it may be mapped to is taken.
theorem Claimed.saturates (h₀ : Owners fs root groups c₀) (h : Claimed fs root c₀ files c)
    (ho : Outside fs root old) (he : Eligible fs groups root files old rel) :
    old ∈ c.mapping.map Prod.fst ∨ rel ∈ c.mapping.map Prod.snd := by
  have ⟨file, hf, hg, hr, _⟩ := he
  obtain ht | hall := h.saturated file hf rel hr
  case inl => exact .inr ((h.taken rel).mp ht)
  case inr => exact .inl (hall (old, file.2) ((h₀.pending _).mpr ⟨hg, ho⟩) rfl)

-- Eligible paths are the ones that have the same class, which is the set of their hashes.
theorem eligible_iff (hn : (groups.map Prod.fst).Nodup)
    (hs : ∀ file ∈ files, ∀ file' ∈ files, ∀ rel, fs.projectRelativePosix file.1 root = .ok rel →
      fs.projectRelativePosix file'.1 root = .ok rel → file.2 = file'.2) :
    Eligible fs groups root files old rel ↔
      (∃ hashes, (old, hashes) ∈ groups) ∧
      (¬Owned fs root groups rel ∧ ∃ file ∈ files, fs.projectRelativePosix file.1 root = .ok rel) ∧
      { hashes | (old, hashes) ∈ groups } =
        { hashes | ∃ file ∈ files, fs.projectRelativePosix file.1 root = .ok rel ∧
          file.2 = hashes } := by
  constructor
  case mp =>
    rintro ⟨file, hf, hg, hr, ho⟩
    refine ⟨⟨file.2, hg⟩, ⟨ho, file, hf, hr⟩, Set.ext fun hashes => ⟨fun hg' => ?_, ?_⟩⟩
    · have he := List.inj_on_of_nodup_map hn hg hg' rfl
      exact ⟨file, hf, hr, congrArg Prod.snd he⟩
    · rintro ⟨file', hf', hr', rfl⟩
      exact hs file hf file' hf' rel hr hr' ▸ hg
  case mpr =>
    rintro ⟨⟨hashes, hg⟩, ⟨ho, _⟩, he⟩
    have hm : hashes ∈ { hashes | (old, hashes) ∈ groups } := hg
    rw [he] at hm
    have ⟨file, hf, hr, hh⟩ := hm
    exact ⟨file, hf, hh ▸ hg, hr, ho⟩

-- The stored paths outside of the root, the relative paths that can be claimed for them, and their
-- classes.
def outsiders (fs : FileSystem) (groups : Groups) (root : String) : Set String :=
  { old | Outside fs root old ∧ ∃ hashes, (old, hashes) ∈ groups }

def claimable (fs : FileSystem) (groups : Groups) (root : String)
    (files : List (String × Multiset String)) : Set String :=
  { rel | ¬Owned fs root groups rel ∧ ∃ file ∈ files, fs.projectRelativePosix file.1 root = .ok rel }

def storedHashes (groups : Groups) (old : String) : Set (Multiset String) :=
  { hashes | (old, hashes) ∈ groups }

def listedHashes (fs : FileSystem) (root : String) (files : List (String × Multiset String))
    (rel : String) : Set (Multiset String) :=
  { hashes | ∃ file ∈ files, fs.projectRelativePosix file.1 root = .ok rel ∧ file.2 = hashes }

theorem Follows.matching {mapping : List (String × String)} (hn : (groups.map Prod.fst).Nodup)
    (hs : ∀ file ∈ files, ∀ file' ∈ files, ∀ rel, fs.projectRelativePosix file.1 root = .ok rel →
      fs.projectRelativePosix file'.1 root = .ok rel → file.2 = file'.2)
    (h : Follows fs groups root files mapping) :
    Matching (outsiders fs groups root) (claimable fs groups root files) (storedHashes groups)
      (listedHashes fs root files) (outsideOf fs root mapping).toFinset := by
  have hmem : ∀ m ∈ (outsideOf fs root mapping).toFinset, m ∈ mapping ∧ Outside fs root m.1 :=
    fun m hm => mem_outsideOf.mp (List.mem_toFinset.mp hm)
  have hel := fun m hm => (eligible_iff hn hs).mp (h.eligible m (hmem m hm).left (hmem m hm).right)
  exact {
    left  := fun m hm => ⟨(hmem m hm).right, (hel m hm).left⟩
    right := fun m hm => (hel m hm).right.left
    same  := fun m hm => (hel m hm).right.right
    fst   := fun m hm m' hm' => List.inj_on_of_nodup_map h.olds (hmem m hm).left (hmem m' hm').left
    snd   := fun m hm m' hm' => List.inj_on_of_nodup_map h.rels (hmem m hm).left (hmem m' hm').left
  }

theorem Follows.card {mapping : List (String × String)} (h : Follows fs groups root files mapping) :
    (outsideOf fs root mapping).toFinset.card = (outsideOf fs root mapping).length :=
  List.toFinset_card_of_nodup (h.olds.of_map.filter _)

-- The migration claims every relative path that it can.
theorem claimRelativePaths_maximum (ha : ∀ group ∈ groups, Path.isAbsolute group.1)
    (hn : (groups.map Prod.fst).Nodup)
    (hs : ∀ file ∈ files, ∀ file' ∈ files, ∀ rel, fs.projectRelativePosix file.1 root = .ok rel →
      fs.projectRelativePosix file'.1 root = .ok rel → file.2 = file'.2) :
    Follows fs groups root files (claimRelativePaths fs groups root files) ∧
    (∀ mapping, Follows fs groups root files mapping →
      (outsideOf fs root mapping).length ≤
        (outsideOf fs root (claimRelativePaths fs groups root files)).length) ∧
    ∀ old rel, Outside fs root old → Eligible fs groups root files old rel →
      old ∈ (claimRelativePaths fs groups root files).map Prod.fst ∨
      rel ∈ (claimRelativePaths fs groups root files).map Prod.snd := by
  have h₀ : Owners fs root groups _ := owners_foldl ha hn
  have h : Claimed fs root _ files _ := claimed_foldl h₀
  have hfollows : Follows fs groups root files (claimRelativePaths fs groups root files) :=
    h.follows h₀
  have hsat : ∀ old rel, Outside fs root old → Eligible fs groups root files old rel →
      old ∈ (claimRelativePaths fs groups root files).map Prod.fst ∨
      rel ∈ (claimRelativePaths fs groups root files).map Prod.snd :=
    fun old rel => h.saturates h₀
  refine ⟨hfollows, fun mapping hm => ?_, hsat⟩
  rw [←hm.card, ←hfollows.card]
  refine (hfollows.matching hn hs).card_le_of_maximal ?_ (hm.matching hn hs)
  intro old hold rel hrel hclass
  have he := (eligible_iff hn hs).mpr ⟨hold.right, hrel, hclass⟩
  obtain ho | hr := hsat old rel hold.left he
  case inl =>
    obtain ⟨m, hm, rfl⟩ := List.mem_map.mp ho
    exact .inl ⟨m, List.mem_toFinset.mpr (mem_outsideOf.mpr ⟨hm, hold.left⟩), rfl⟩
  case inr =>
    obtain ⟨m, hm, rfl⟩ := List.mem_map.mp hr
    -- An under-root path that is mapped to the relative path would own it.
    refine .inr ⟨m, List.mem_toFinset.mpr (mem_outsideOf.mpr ⟨hm, ?_⟩), rfl⟩
    match hp : fs.projectRelativePosix m.1 root with
    | .error e => exact ⟨e, hp⟩
    | .ok r    =>
      have ⟨group, hg, hi⟩ := hfollows.stored m hm
      have hr := hfollows.own m hm r hp
      exact (hrel.left ⟨group, hg, by rw [hi, hp, hr]⟩).elim

-- Two stored paths outside of the root compete for one file.
def sampleGroups : Groups :=
  [("/p/a", {"x"}), ("/q/b", {"y"}), ("/r/b", {"y"})]

def sampleFiles : List (String × Multiset String) :=
  [("/p/a", {"z"}), ("/p/b", {"y"})]

def sampleMapping : List (String × String) :=
  claimRelativePaths (Sample.fileSystem []) sampleGroups "/p" sampleFiles

theorem claimRelativePaths_maximum_sample :
    Follows (Sample.fileSystem []) sampleGroups "/p" sampleFiles sampleMapping ∧
    (∀ mapping, Follows (Sample.fileSystem []) sampleGroups "/p" sampleFiles mapping →
      (outsideOf (Sample.fileSystem []) "/p" mapping).length ≤
        (outsideOf (Sample.fileSystem []) "/p" sampleMapping).length) ∧
    ∀ old rel, Outside (Sample.fileSystem []) "/p" old →
      Eligible (Sample.fileSystem []) sampleGroups "/p" sampleFiles old rel →
      old ∈ sampleMapping.map Prod.fst ∨ rel ∈ sampleMapping.map Prod.snd := by
  have hinj : (sampleFiles.map fun file =>
      (Sample.fileSystem []).projectRelativePosix file.1 "/p").Nodup := by decide +kernel
  have habs : (sampleGroups.map Prod.fst).all Path.isAbsolute := by decide +kernel
  refine claimRelativePaths_maximum ?_ (by decide +kernel) ?_
  · exact fun group hg => List.all_eq_true.mp habs _ (List.mem_map_of_mem hg)
  · intro file hf file' hf' rel hr hr'
    exact congrArg Prod.snd (List.inj_on_of_nodup_map hinj hf hf' (hr.trans hr'.symm))

example : sampleMapping = [("/p/a", "a"), ("/q/b", "b")] := by decide +kernel

end PathMigration
