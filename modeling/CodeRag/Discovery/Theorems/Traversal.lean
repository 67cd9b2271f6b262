import CodeRag.Lib.FirstPath
import CodeRag.Discovery.Providers
import CodeRag.Services.Theorems.Sample

-- Which files a provider collects.

namespace Provider

open DepthFirst

variable {p : Provider} {ext : Extracted} {entries l : List FilePath} {file dst : FilePath}
variable {units : List KnowledgeUnit} {n k : Nat}

def unitsOf (p : Provider) (file : FilePath) : List KnowledgeUnit :=
  match p.sources.distillFile file with
  | .ok units => units
  | .error _  => []

def keptUnits (p : Provider) (file : FilePath) : List KnowledgeUnit :=
  (p.unitsOf file).filter p.keeps

-- The file has a unit that leads to another file.
def Exports (p : Provider) (file dst : FilePath) : Prop :=
  ∃ unit ∈ p.unitsOf file, p.target file unit = .ok (some dst) ∧ p.sources.present dst

-- The file has a unit whose target cannot be resolved.
def Stuck (p : Provider) (file : FilePath) : Prop :=
  ∃ unit ∈ p.unitsOf file, ∃ e, p.target file unit = .error e

-- The existing files that some entry leads to in `k` hops.
def Within (p : Provider) (entries : List FilePath) : Nat → FilePath → Prop :=
  Reaches p.Exports fun file => file ∈ entries ∧ p.sources.present file

-- The targets up to the first one that cannot be resolved.
def targets (p : Provider) (file : FilePath) : List KnowledgeUnit → List FilePath
  | []            => []
  | unit :: units =>
    match p.target file unit with
    | .error _       => []
    | .ok none       => targets p file units
    | .ok (some dst) => dst :: targets p file units

-- The existing files among the targets, each one once.
def hops (p : Provider) (file : FilePath) : List FilePath :=
  distinct ((p.targets file (p.unitsOf file)).filter p.sources.present)

def roots (p : Provider) (entries : List FilePath) : List FilePath :=
  distinct (entries.filter p.sources.present)

-- A file within two hops that exports existing files has no export whose target cannot be resolved,
-- and the first path to it, in the order of the exports, has at most two hops.
def Early (p : Provider) (entries : List FilePath) : Prop :=
  ∀ file dst k, k < MAX_DEPTH → p.Within entries k file → p.Exports file dst →
    ¬p.Stuck file ∧ ∀ path, firstPath? p.hops (MAX_DEPTH + 1) (p.roots entries) file = some path →
      path.length ≤ MAX_DEPTH

-- The file is met after `k` hops: in the list of the paths of hops from the entries in depth-first
-- order, of which those are passed over that extend a path that was passed over or that end in a file
-- that was met before.
def Meets (p : Provider) (entries : List FilePath) : Nat → FilePath → Prop :=
  DepthFirst.Meets p.hops (MAX_DEPTH + 1) (p.roots entries)

-- The provider collects the units of each file within the limit once, and no others.
structure Complete (p : Provider) (entries : List FilePath) : Prop where
  visited : ∀ file, file ∈ (p.extract entries).visited ↔ ∃ k ≤ MAX_DEPTH, p.Within entries k file
  once    : (p.extract entries).visited.Nodup
  results : (p.extract entries).results = (p.extract entries).visited.flatMap p.keptUnits

-- What a file exports that is met too late or has a target that cannot be resolved, other files
-- export as well.
def Covered (p : Provider) (entries : List FilePath) : Prop :=
  ∀ file dst k, k < MAX_DEPTH → p.Within entries k file →
    p.Meets entries MAX_DEPTH file ∨ p.Stuck file → p.Exports file dst →
    dst ∈ entries ∨ ∃ other j, j < MAX_DEPTH ∧ p.Meets entries j other ∧ dst ∈ p.hops other

theorem followUnits_eq_foldl {extract : Extracted → FilePath → Extracted} :
    p.followUnits extract file ext units = (p.targets file units).foldl extract ext := by
  induction units generalizing ext
  case nil => rfl
  case cons unit units ih =>
    unfold followUnits targets
    match p.target file unit with
    | .error _       => rfl
    | .ok none       => exact ih
    | .ok (some dst) => exact ih

theorem mem_targets {units : List KnowledgeUnit} (h : dst ∈ p.targets file units) :
    ∃ unit ∈ units, p.target file unit = .ok (some dst) := by
  induction units
  case nil => cases h
  case cons unit units ih =>
    unfold targets at h
    split at h
    case h_1 => cases h
    case h_2 =>
      have ⟨u, hu, ht⟩ := ih h
      exact ⟨u, .tail _ hu, ht⟩
    case h_3 d hd =>
      obtain rfl | h := List.mem_cons.mp h
      · exact ⟨unit, .head _, hd⟩
      · have ⟨u, hu, ht⟩ := ih h
        exact ⟨u, .tail _ hu, ht⟩

theorem mem_targets_of_not_stuck {units : List KnowledgeUnit} {unit : KnowledgeUnit}
    (hs : ∀ u ∈ units, ∀ e, p.target file u ≠ .error e) (hu : unit ∈ units)
    (h : p.target file unit = .ok (some dst)) : dst ∈ p.targets file units := by
  induction units
  case nil => cases hu
  case cons u units ih =>
    have hs' := fun u hu => hs u (.tail _ hu)
    unfold targets
    split
    case h_1 e he => exact (hs u (.head _) e he).elim
    case h_2 he =>
      obtain rfl | hu := List.mem_cons.mp hu
      · cases he.symm.trans h
      · exact ih hs' hu
    case h_3 d he =>
      obtain rfl | hu := List.mem_cons.mp hu
      · cases he.symm.trans h
        exact .head _
      · exact .tail _ (ih hs' hu)

theorem mem_hops : dst ∈ p.hops file ↔
    dst ∈ p.targets file (p.unitsOf file) ∧ p.sources.present dst := by
  rw [hops, mem_distinct, List.mem_filter]

theorem mem_roots : file ∈ p.roots entries ↔ file ∈ entries ∧ p.sources.present file := by
  rw [roots, mem_distinct, List.mem_filter]

theorem exports_of_mem_hops (h : dst ∈ p.hops file) : p.Exports file dst := by
  have ⟨ht, hp⟩ := mem_hops.mp h
  have ⟨unit, hu, he⟩ := mem_targets ht
  exact ⟨unit, hu, he, hp⟩

theorem mem_hops_of_exports (hs : ¬p.Stuck file) (h : p.Exports file dst) : dst ∈ p.hops file := by
  have ⟨unit, hu, he, hp⟩ := h
  refine mem_hops.mpr ⟨mem_targets_of_not_stuck (fun u hu e hf => hs ⟨u, hu, e, hf⟩) hu he, hp⟩

-- The files that a traversal has visited, and the units that it has collected from them.
def Consistent (p : Provider) (ext : Extracted) : Prop :=
  ext.results = ext.visited.flatMap p.keptUnits

-- A traversal visits the files of a depth-first traversal.
theorem foldl_recursiveExtract (h : p.Consistent ext) :
    (l.foldl (p.recursiveExtract n) ext).visited =
      (l.filter p.sources.present).foldl (visit p.hops n) ext.visited ∧
    p.Consistent (l.foldl (p.recursiveExtract n) ext) := by
  induction n generalizing l ext
  case zero =>
    induction l generalizing ext
    case nil            => exact ⟨rfl, h⟩
    case cons file l ih =>
      have hskip : ∀ (l : List FilePath) seen, l.foldl (visit p.hops 0) seen = seen := by
        intro l
        induction l
        case nil       => exact fun _ => rfl
        case cons l ih => exact fun seen => ih seen
      rw [hskip]
      exact ⟨(ih h).left.trans (hskip _ _), (ih h).right⟩
  case succ n ihn =>
    have hone : ∀ file ext, p.Consistent ext →
        (p.recursiveExtract (n + 1) ext file).visited =
          (if p.sources.present file then visit p.hops (n + 1) ext.visited file else ext.visited) ∧
        p.Consistent (p.recursiveExtract (n + 1) ext file) := by
      intro file ext h
      unfold recursiveExtract visit
      by_cases hp : p.sources.present file
      case neg => simp [hp, h]
      case pos =>
        by_cases hv : file ∈ ext.visited
        case pos => simp [hv, h]
        case neg =>
          rw [if_neg (by simp [hp, hv]), if_pos hp, if_neg hv]
          dsimp only
          split
          case h_1 e he =>
            have hu : p.unitsOf file = [] := by simp [unitsOf, he]
            have hh : p.hops file = [] := by simp [hops, hu, targets, distinct]
            refine ⟨by rw [hh]; rfl, ?_⟩
            simpa [Consistent, keptUnits, hu] using h
          case h_2 units he =>
            have hu : p.unitsOf file = units := by simp [unitsOf, he]
            rw [followUnits_eq_foldl]
            have h' : p.Consistent { visited := ext.visited ++ [file],
                                     results := ext.results ++ units.filter p.keeps } := by
              simpa [Consistent, keptUnits, hu] using h
            obtain ⟨hv', hc⟩ := ihn (l := p.targets file units) h'
            refine ⟨?_, hc⟩
            rw [hv', hops, hu, foldl_visit_distinct]
    induction l generalizing ext
    case nil => exact ⟨rfl, h⟩
    case cons file l ih =>
      obtain ⟨hv, hc⟩ := hone file ext h
      obtain ⟨hv', hc'⟩ := ih hc
      refine ⟨?_, hc'⟩
      rw [List.foldl_cons, hv', hv]
      by_cases hp : p.sources.present file
      · rw [if_pos hp, List.filter_cons_of_pos hp, List.foldl_cons]
      · rw [if_neg hp, List.filter_cons_of_neg hp]

theorem visited_extract : (p.extract entries).visited =
    (p.roots entries).foldl (visit p.hops (MAX_DEPTH + 1)) [] ∧ p.Consistent (p.extract entries) := by
  have h : p.Consistent { visited := [], results := [] } := rfl
  have ⟨hv, hc⟩ := foldl_recursiveExtract (n := MAX_DEPTH + 1) (l := entries) h
  exact ⟨hv.trans foldl_visit_distinct.symm, hc⟩

theorem nodup_hops : (p.hops file).Nodup :=
  nodup_distinct

theorem nodup_roots : (p.roots entries).Nodup :=
  nodup_distinct

theorem mem_visited_iff_meets :
    file ∈ (p.extract entries).visited ↔ ∃ k, p.Meets entries k file := by
  rw [visited_extract.left]
  exact mem_visits_iff_meets (fun _ => nodup_hops) nodup_roots

theorem mem_visited_of_root (h : file ∈ p.roots entries) : file ∈ (p.extract entries).visited :=
  visited_extract.left ▸ mem_foldl_visit h

theorem meets_hop (h : p.Meets entries k file) (hk : k < MAX_DEPTH) (hd : dst ∈ p.hops file) :
    dst ∈ (p.extract entries).visited :=
  mem_visited_iff_meets.mpr (h.expand (fun _ => nodup_hops) nodup_roots (by omega) hd)

theorem within_of_meets (h : p.Meets entries k file) : p.Within entries k file := by
  induction k generalizing file
  case zero =>
    obtain ⟨_, hr⟩ | ⟨j, b, hj, _⟩ := h.cases (fun _ => nodup_hops) nodup_roots
    case inl => exact .root (mem_roots.mp hr)
    case inr => cases hj
  case succ k ih =>
    obtain ⟨hk, _⟩ | ⟨j, b, hj, hb, hf⟩ := h.cases (fun _ => nodup_hops) nodup_roots
    case inl => cases hk
    case inr =>
      obtain rfl := Nat.succ.inj hj
      exact .hop (ih hb) (exports_of_mem_hops hf)

-- A file that is within the limit is visited when its exports are covered.
theorem visited_of_within (hc : p.Covered entries) (hw : p.Within entries k file)
    (hk : k ≤ MAX_DEPTH) : file ∈ (p.extract entries).visited := by
  induction hw
  case root hr => exact mem_visited_of_root (mem_roots.mpr hr)
  case hop k b a hw he ih =>
    have hlt : k < MAX_DEPTH := hk
    have ⟨j, hj⟩ := mem_visited_iff_meets.mp (ih (by omega))
    by_cases hlate : p.Meets entries MAX_DEPTH b ∨ p.Stuck b
    case pos =>
      obtain hm | ⟨other, i, hi, ho, hd⟩ := hc b a k hlt hw hlate he
      case inl =>
        have ⟨_, _, _, hp⟩ := he
        exact mem_visited_of_root (mem_roots.mpr ⟨hm, hp⟩)
      case inr => exact meets_hop ho hi hd
    case neg =>
      have hne : j ≠ MAX_DEPTH := fun h => hlate (.inl (h ▸ hj))
      have := hj.lt (fun _ => nodup_hops) nodup_roots
      exact meets_hop hj (by omega) (mem_hops_of_exports (fun hs => hlate (.inr hs)) he)

theorem complete_iff_covered : p.Complete entries ↔ p.Covered entries := by
  constructor
  case mp =>
    intro h file dst k hk hw _ he
    have hv := (h.visited dst).mpr ⟨k + 1, hk, hw.hop he⟩
    have ⟨j, hm⟩ := mem_visited_iff_meets.mp hv
    have hj := hm.lt (fun _ => nodup_hops) nodup_roots
    obtain ⟨_, hr⟩ | ⟨i, other, rfl, ho, hd⟩ := hm.cases (fun _ => nodup_hops) nodup_roots
    case inl => exact .inl (mem_roots.mp hr).left
    case inr => exact .inr ⟨other, i, by omega, ho, hd⟩
  case mpr =>
    intro hc
    refine ⟨fun file => ⟨fun hv => ?_, fun ⟨k, hk, hw⟩ => visited_of_within hc hw hk⟩, ?_,
      visited_extract.right⟩
    · have ⟨k, hm⟩ := mem_visited_iff_meets.mp hv
      have hk := hm.lt (fun _ => nodup_hops) nodup_roots
      exact ⟨k, by omega, within_of_meets hm⟩
    · rw [visited_extract.left]
      exact nodup_foldl (fun _ _ => nodup_visit) .nil

section Early

-- Where no target is in the way, the traversal can go along all exports.
theorem reaches_of_within (hs : ∀ file dst j, j < k → p.Within entries j file → p.Exports file dst →
    ¬p.Stuck file) (hw : p.Within entries k file) :
    Reaches (fun a b => b ∈ p.hops a) (· ∈ p.roots entries) k file := by
  induction hw
  case root hr => exact .root (mem_roots.mpr hr)
  case hop k a b hw he ih =>
    refine .hop (ih fun file dst j hj => hs file dst j (by omega)) ?_
    exact mem_hops_of_exports (hs a b k (by omega) hw he) he

theorem within_of_reaches (h : Reaches (fun a b => b ∈ p.hops a) (· ∈ p.roots entries) k file) :
    p.Within entries k file := by
  induction h
  case root hr       => exact .root (mem_roots.mp hr)
  case hop ha hb ih  => exact .hop ih (exports_of_mem_hops hb)

theorem leads_of_within (hs : ∀ file dst j, j < MAX_DEPTH → p.Within entries j file →
    p.Exports file dst → ¬p.Stuck file) (hk : k < MAX_DEPTH) (hw : p.Within entries k file)
    (he : p.Exports file dst) : Leads p.hops (MAX_DEPTH + 1) (p.roots entries) file :=
  ⟨List.ne_nil_of_mem (mem_hops_of_exports (hs file dst k hk hw he) he), k, by omega,
    reaches_of_within (fun file dst j hj => hs file dst j (by omega)) hw⟩

theorem onTime_iff_not_meets : OnTime p.hops (MAX_DEPTH + 1) (p.roots entries)
    (firsts p.hops (MAX_DEPTH + 1) (p.roots entries)) ↔
      ∀ file, Leads p.hops (MAX_DEPTH + 1) (p.roots entries) file → ¬p.Meets entries MAX_DEPTH file := by
  constructor
  case mp =>
    rintro h file hl ⟨path, hp, hk⟩
    have := h file path hl hp
    simp only [List.length_cons] at this
    omega
  case mpr =>
    intro h file path hl hp
    have hm : p.Meets entries path.length file := ⟨path, hp, rfl⟩
    have hlt := hm.lt (fun _ => nodup_hops) nodup_roots
    have hne : path.length ≠ MAX_DEPTH := fun he => h file hl (he ▸ hm)
    simp only [List.length_cons]
    omega

-- The condition leaves out exactly the sources where the traversal gives up at a file from which it
-- has to go on.
theorem early_iff : p.Early entries ↔ ∀ file dst k, k < MAX_DEPTH → p.Within entries k file →
    p.Exports file dst → ¬p.Stuck file ∧ ¬p.Meets entries MAX_DEPTH file := by
  constructor
  case mp =>
    intro h
    have hearly : DepthFirst.Early p.hops (MAX_DEPTH + 1) (p.roots entries) := by
      rintro file path ⟨hne, k, hk, hr⟩ hf
      obtain ⟨dst, hd⟩ := List.exists_mem_of_ne_nil _ hne
      have := (h file dst k (by omega) (within_of_reaches hr) (exports_of_mem_hops hd)).right path hf
      omega
    intro file dst k hk hw he
    have hs := fun file dst j hj hw he => (h file dst j hj hw he).left
    exact ⟨hs file dst k hk hw he,
      onTime_iff_not_meets.mp (onTime_iff.mpr hearly) file (leads_of_within hs hk hw he)⟩
  case mpr =>
    intro h
    have htime : OnTime p.hops (MAX_DEPTH + 1) (p.roots entries)
        (firsts p.hops (MAX_DEPTH + 1) (p.roots entries)) := by
      refine onTime_iff_not_meets.mpr ?_
      rintro file ⟨hne, k, hk, hr⟩
      obtain ⟨dst, hd⟩ := List.exists_mem_of_ne_nil _ hne
      exact (h file dst k (by omega) (within_of_reaches hr) (exports_of_mem_hops hd)).right
    intro file dst k hk hw he
    have hs := fun file dst j hj hw he => (h file dst j hj hw he).left
    refine ⟨hs file dst k hk hw he, fun path hf => ?_⟩
    exact Nat.le_of_lt_succ (onTime_iff.mp htime file path (leads_of_within hs hk hw he) hf)

theorem covered_of_early (h : p.Early entries) : p.Covered entries := by
  intro file dst k hk hw hlate he
  have ⟨hs, hm⟩ := early_iff.mp h file dst k hk hw he
  exact (hlate.elim hm hs).elim

-- The providers for JavaScript and for Rust collect everything within the limit when the first paths
-- to the files are short enough.
theorem complete_of_early (src : Sources) (entries : List FilePath) :
    ((JavaScript.provider src).Early entries → (JavaScript.provider src).Complete entries) ∧
    ((Rust.provider src).Early entries → (Rust.provider src).Complete entries) :=
  ⟨fun h => complete_iff_covered.mpr (covered_of_early h),
    fun h => complete_iff_covered.mpr (covered_of_early h)⟩

end Early

section Sample

-- Sources of which every line is a node of the type.
private def sampleSources (type : String) (files : List (FilePath × String)) : Sources where
  runtime := { Sample.runtime with
    loadGrammar := fun _ => .ok fun source => .ok <| .mk "program" none (some source) 0 0 0 0
      (((source.splitOn 10).filter (· ≠ [])).map (Sample.leaf type)) }
  files        := Sample.fileSystem (files.map fun f => (f.1.str, f.2))
  present path := (files.map Prod.fst).contains path

-- The entry exports `a` and `c`, in one order or the other, and `a` leads to `c` by way of `b`.
private def scripts (exports : String) : Sources :=
  sampleSources "export_statement" [
    (["l", "index.js"], exports), (["l", "a.js"], "export * from './b'"), (["l", "b.js"], "export * from './c'"),
    (["l", "c.js"], "export * from './d'"), (["l", "d.js"], "")]

private def scriptsFromA : Sources :=
  scripts "export * from './a'\nexport * from './c'"

private def scriptsFromC : Sources :=
  scripts "export * from './c'\nexport * from './a'"

private def crate (mods : String) : Sources :=
  sampleSources "mod_item" [
    (["l", "lib.rs"], mods), (["l", "a.rs"], "pub mod b;"), (["l", "b.rs"], "pub mod c;"),
    (["l", "c.rs"], "pub mod d;"), (["l", "d.rs"], "")]

private def crateFromA : Sources :=
  crate "pub mod a;\npub mod c;"

private def crateFromC : Sources :=
  crate "pub mod c;\npub mod a;"

private theorem early_of_files {files : List FilePath} (hf : ∀ file, p.sources.present file → file ∈ files)
    (hc : ∀ file ∈ files, (∀ unit ∈ p.unitsOf file, (p.target file unit).isOk) ∧
      ∀ path ∈ firstPath? p.hops (MAX_DEPTH + 1) (p.roots entries) file, path.length ≤ MAX_DEPTH) :
    p.Early entries := by
  intro file dst k _ hw _
  have hp : p.sources.present file := by
    cases hw
    case root hr   => exact hr.right
    case hop he    => exact he.choose_spec.right.right
  have ⟨hok, hpath⟩ := hc file (hf file hp)
  refine ⟨fun ⟨unit, hu, e, he⟩ => ?_, hpath⟩
  have := hok unit hu
  rw [he] at this
  cases this

-- When the entry leads to `c` first, everything is collected.
theorem complete_of_early_sample :
    (JavaScript.provider scriptsFromC).Complete [["l", "index.js"]] ∧
    (Rust.provider crateFromC).Complete [["l", "lib.rs"]] := by
  have hp : ∀ (p : Provider) type files, p.sources = sampleSources type files →
      ∀ file, p.sources.present file → file ∈ files.map Prod.fst := by
    intro p type files he file hf
    rw [he] at hf
    simpa only [sampleSources, List.contains_iff_mem] using hf
  refine ⟨(complete_of_early scriptsFromC [["l", "index.js"]]).left ?_,
    (complete_of_early crateFromC [["l", "lib.rs"]]).right ?_⟩
  · exact early_of_files (hp _ _ _ rfl) (by decide +kernel)
  · exact early_of_files (hp _ _ _ rfl) (by decide +kernel)

theorem not_complete_of_not_visited {entry : FilePath} (hr : entry ∈ p.roots entries)
    (hf : file ∈ p.hops entry) (hd : dst ∈ p.hops file)
    (hv : dst ∉ (p.extract entries).visited) : ¬p.Complete entries := fun h =>
  hv <| (h.visited dst).mpr ⟨2, by decide, .hop (.hop (.root (mem_roots.mp hr))
    (exports_of_mem_hops hf)) (exports_of_mem_hops hd)⟩

-- When it leads to `a` first, `c` is met after three hops, so that what it exports is not collected.
theorem not_complete :
    ¬(JavaScript.provider scriptsFromA).Complete [["l", "index.js"]] ∧
    ¬(Rust.provider crateFromA).Complete [["l", "lib.rs"]] := by
  constructor
  case left =>
    have hr : ["l", "index.js"] ∈ (JavaScript.provider scriptsFromA).roots [["l", "index.js"]] := by
      decide +kernel
    have hf : ["l", "c.js"] ∈ (JavaScript.provider scriptsFromA).hops ["l", "index.js"] := by
      decide +kernel
    have hd : ["l", "d.js"] ∈ (JavaScript.provider scriptsFromA).hops ["l", "c.js"] := by
      decide +kernel
    exact not_complete_of_not_visited hr hf hd (by decide +kernel)
  case right =>
    have hr : ["l", "lib.rs"] ∈ (Rust.provider crateFromA).roots [["l", "lib.rs"]] := by
      decide +kernel
    have hf : ["l", "c.rs"] ∈ (Rust.provider crateFromA).hops ["l", "lib.rs"] := by decide +kernel
    have hd : ["l", "d.rs"] ∈ (Rust.provider crateFromA).hops ["l", "c.rs"] := by decide +kernel
    exact not_complete_of_not_visited hr hf hd (by decide +kernel)

end Sample

end Provider
