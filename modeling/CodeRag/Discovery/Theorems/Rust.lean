import CodeRag.Discovery.Providers
import CodeRag.Services.Theorems.Sample

-- Which file a module declaration leads to.

theorem String.hasInfix_singleton {s p : String} {c : Char} (hp : p.toList = [c]) :
    s.hasInfix p ↔ c ∈ s.toList := by
  unfold String.hasInfix
  rw [hp]
  induction s.toList
  case nil          => simp
  case cons d l ih => simp only [List.tails_cons, List.any_cons, Bool.or_eq_true, ih]; simp

namespace Rust

section Grammar

def isMark (c : Char) : Bool :=
  c ∈ ['(', ')', ':', ';']

-- The characters of names, as far as they tell a name from what stands around it.
def isNameChar (c : Char) : Bool :=
  ¬String.isBlank c ∧ ¬isMark c ∧ c ≠ '\x7b'

-- The text before `mod`: marks, blanks, `pub` and `in`, and names, each with a mark after it.
inductive Visibility : List Char → Prop
  | nil :
    Visibility []
  | blank {c : Char} {v : List Char} :
    String.isBlank c → Visibility v → Visibility (c :: v)
  | mark {c : Char} {v : List Char} :
    isMark c → Visibility v → Visibility (c :: v)
  | keyword {w v : List Char} :
    w ∈ ["pub".toList, "in".toList] → Visibility v → Visibility (w ++ v)
  | name {w gap v : List Char} {c : Char} :
    (∀ c ∈ w, isNameChar c) → (∀ c ∈ gap, String.isBlank c) → isMark c → Visibility v →
    Visibility (w ++ (gap ++ c :: v))

-- A declaration `mod m;` without attributes and comments. A raw name is written with `r#`.
structure Declaration where
  visibility    : List Char
  blanks        : List Char
  raw           : Bool
  name          : List Char
  after         : List Char
  visibility_wf : Visibility visibility
  blanks_ne     : blanks ≠ []
  blanks_wf     : ∀ c ∈ blanks, String.isBlank c
  name_ne       : name ≠ []
  name_wf       : ∀ c ∈ name, isNameChar c
  after_wf      : ∀ c ∈ after, String.isBlank c

namespace Declaration

def written (d : Declaration) : List Char :=
  if d.raw then 'r' :: '#' :: d.name else d.name

def text (d : Declaration) : List Char :=
  d.visibility ++ ("mod".toList ++ (d.blanks ++ (d.written ++ (d.after ++ [';']))))

-- The letters, digits and underscores that the written name starts with.
def readName (d : Declaration) : List Char :=
  d.written.takeWhile isWordChar

-- The unit that a parser makes of a declaration.
def IsUnit (d : Declaration) (unit : KnowledgeUnit) : Prop :=
  unit.kind = .module ∧ unit.metadataStr "node_type" = "mod_item" ∧
    unit.metadataStr "raw_code" = .ofList d.text

end Declaration

theorem not_word_of_blank {c : Char} (h : String.isBlank c) : isWordChar c = false := by
  rw [Bool.eq_false_iff]
  intro hw
  have hr : 48 ≤ c.toNat ∧ c.toNat ≤ 122 := by
    simp only [isWordChar, Char.isAlphanum, Char.isAlpha, Char.isUpper, Char.isLower, Char.isDigit,
      Bool.or_eq_true, Bool.and_eq_true, decide_eq_true_eq, UInt32.le_iff_toNat_le, ge_iff_le] at hw
    obtain ((⟨h₁, h₂⟩ | ⟨h₁, h₂⟩) | ⟨h₁, h₂⟩) | rfl := hw
    case inr => decide
    all_goals exact ⟨le_trans (by decide) h₁, le_trans h₂ (by decide)⟩
  simp only [String.isBlank, List.mem_cons, List.not_mem_nil, or_false, decide_eq_true_eq] at h
  omega

theorem not_word_of_mark {c : Char} (h : isMark c) : isWordChar c = false := by
  simp only [isMark, List.mem_cons, List.not_mem_nil, or_false, decide_eq_true_eq] at h
  rcases h with rfl | rfl | rfl | rfl <;> rfl

-- The search for a declaration finds nothing at the beginning of a text.
def Skips (v rest : List Char) : Prop :=
  (v ++ rest).tails.findSome? matchMod = rest.tails.findSome? matchMod

variable {v w gap rest : List Char} {c : Char}

theorem Skips.cons (h : matchMod (c :: (v ++ rest)) = none) (hs : Skips v rest) :
    Skips (c :: v) rest := by
  unfold Skips
  rw [List.cons_append, List.tails_cons, List.findSome?_cons, h]
  exact hs

theorem Skips.append (hv : Skips v (w ++ rest)) (hw : Skips w rest) : Skips (v ++ w) rest := by
  unfold Skips
  rw [List.append_assoc]
  exact hv.trans hw

theorem matchMod_of_ne (h : c ≠ 'm') : matchMod (c :: rest) = none := by
  refine if_neg fun ⟨hp, _⟩ => ?_
  rw [List.isPrefixOf_iff_prefix] at hp
  exact h (List.cons_prefix_cons.mp hp).left.symm

theorem Skips.of_ne (h : ∀ c ∈ v, c ≠ 'm') : Skips v rest := by
  induction v
  case nil          => rfl
  case cons c v ih =>
    rw [List.forall_mem_cons] at h
    exact .cons (matchMod_of_ne h.left) (ih h.right)

theorem ne_m_of_not_word (h : isWordChar c = false) : c ≠ 'm' := by
  rintro rfl
  cases h

theorem not_blank_of_mark (h : isMark c) : String.isBlank c = false := by
  simp only [isMark, List.mem_cons, List.not_mem_nil, or_false, decide_eq_true_eq] at h
  rcases h with rfl | rfl | rfl | rfl <;> rfl

theorem not_blank_of_name (h : isNameChar c) : String.isBlank c = false := by
  simp only [isNameChar, decide_eq_true_eq] at h
  simpa using h.left

private theorem head_not_word {x : Char} {l : List Char} (hg : ∀ c ∈ gap, String.isBlank c)
    (hc : isMark c) (h : x :: l = gap ++ c :: rest) : isWordChar x = false := by
  cases gap
  case nil =>
    cases h
    exact not_word_of_mark hc
  case cons d gap =>
    cases h
    exact not_word_of_blank (hg x (.head _))

-- A name with a mark after it is not `mod` with a name after it.
theorem matchMod_name (hn : w ≠ []) (hw : ∀ c ∈ w, isNameChar c) (hg : ∀ c ∈ gap, String.isBlank c)
    (hc : isMark c) : matchMod (w ++ (gap ++ c :: rest)) = none := by
  refine if_neg fun ⟨hp, hb, hname⟩ => ?_
  rw [List.isPrefixOf_iff_prefix] at hp
  rcases w with _ | ⟨x, _ | ⟨y, _ | ⟨z, _ | ⟨u, w⟩⟩⟩⟩
  case nil => exact hn rfl
  case cons.nil =>
    obtain ⟨l, hl⟩ := (List.cons_prefix_cons.mp hp).right
    exact absurd (head_not_word hg hc hl) (by decide)
  case cons.cons.nil =>
    obtain ⟨l, hl⟩ := (List.cons_prefix_cons.mp (List.cons_prefix_cons.mp hp).right).right
    exact absurd (head_not_word hg hc hl) (by decide)
  case cons.cons.cons.nil =>
    refine hname ?_
    show ((gap ++ c :: rest).dropWhile String.isBlank).takeWhile isWordChar = []
    rw [List.dropWhile_append_of_pos hg, List.dropWhile_cons_of_neg (by simp [not_blank_of_mark hc]),
      List.takeWhile_cons_of_neg (by simp [not_word_of_mark hc])]
  case cons.cons.cons.cons =>
    have hu := not_blank_of_name (hw u (by simp))
    refine hb ?_
    show (u :: (w ++ (gap ++ c :: rest))).takeWhile String.isBlank = []
    rw [List.takeWhile_cons_of_neg (by simp [hu])]

theorem Skips.name (hw : ∀ c ∈ w, isNameChar c) (hg : ∀ c ∈ gap, String.isBlank c) (hc : isMark c) :
    Skips w (gap ++ c :: rest) := by
  induction w
  case nil          => rfl
  case cons x w ih =>
    exact .cons (matchMod_name (List.cons_ne_nil x w) hw hg hc) (ih (List.forall_mem_cons.mp hw).right)

theorem Skips.blanks (hg : ∀ c ∈ gap, String.isBlank c) : Skips gap rest :=
  .of_ne fun c h => ne_m_of_not_word (not_word_of_blank (hg c h))

theorem Skips.mark (hc : isMark c) : Skips [c] rest := by
  refine .of_ne fun d hd => ?_
  rw [List.mem_singleton.mp hd]
  exact ne_m_of_not_word (not_word_of_mark hc)

theorem Visibility.skips (h : Visibility v) : Skips v rest := by
  induction h
  case nil              => rfl
  case blank hc _ ih    => exact .append (v := [_]) (.blanks (by simpa using hc)) ih
  case mark hc _ ih     => exact .append (v := [_]) (.mark hc) ih
  case keyword w v hw _ ih =>
    refine .append (.of_ne fun c hc => ?_) ih
    rintro rfl
    simp only [List.mem_cons, List.not_mem_nil, or_false] at hw
    obtain rfl | rfl := hw <;> revert hc <;> decide
  case name w gap v c hw hg hc _ ih =>
    have hgap : Skips (gap ++ c :: v) rest := .append (.blanks hg) (.append (v := [c]) (.mark hc) ih)
    refine .append ?_ hgap
    rw [List.append_assoc, List.cons_append]
    exact .name hw hg hc

theorem ne_brace_of_blank (h : String.isBlank c) : c ≠ '\x7b' := by
  rintro rfl
  revert h
  decide

theorem ne_brace_of_mark (h : isMark c) : c ≠ '\x7b' := by
  rintro rfl
  revert h
  decide

theorem ne_brace_of_name (h : isNameChar c) : c ≠ '\x7b' := by
  simp only [isNameChar, decide_eq_true_eq] at h
  exact h.right.right

theorem Visibility.ne_brace (h : Visibility v) : ∀ c ∈ v, c ≠ '\x7b' := by
  induction h
  case nil             => simp
  case blank hc _ ih   => exact List.forall_mem_cons.mpr ⟨ne_brace_of_blank hc, ih⟩
  case mark hc _ ih    => exact List.forall_mem_cons.mpr ⟨ne_brace_of_mark hc, ih⟩
  case keyword hw _ ih =>
    refine List.forall_mem_append.mpr ⟨?_, ih⟩
    simp only [List.mem_cons, List.not_mem_nil, or_false] at hw
    obtain rfl | rfl := hw
    · exact (by simp : ∀ c ∈ ['p', 'u', 'b'], c ≠ '\x7b')
    · exact (by simp : ∀ c ∈ ['i', 'n'], c ≠ '\x7b')
  case name hw hg hc _ ih =>
    rw [List.forall_mem_append, List.forall_mem_append, List.forall_mem_cons]
    exact ⟨fun c h => ne_brace_of_name (hw c h), fun c h => ne_brace_of_blank (hg c h),
      ne_brace_of_mark hc, ih⟩

namespace Declaration

variable {d : Declaration}

theorem written_wf : d.written ≠ [] ∧ ∀ c ∈ d.written, isNameChar c := by
  unfold written
  split
  case isFalse => exact ⟨d.name_ne, d.name_wf⟩
  case isTrue =>
    refine ⟨List.cons_ne_nil _ _, ?_⟩
    rw [List.forall_mem_cons, List.forall_mem_cons]
    exact ⟨by decide, by decide, d.name_wf⟩

theorem matchMod_text : matchMod ("mod".toList ++ (d.blanks ++ (d.written ++ (d.after ++ [';'])))) =
    if d.readName = [] then none else some (.ofList d.readName) := by
  obtain ⟨hn, hw⟩ := d.written_wf
  have hblanks : (d.blanks ++ (d.written ++ (d.after ++ [';']))).takeWhile String.isBlank ≠ [] := by
    obtain ⟨c, l, hl⟩ := List.exists_cons_of_ne_nil d.blanks_ne
    rw [hl, List.cons_append, List.takeWhile_cons_of_pos (d.blanks_wf c (hl ▸ .head _))]
    exact List.cons_ne_nil _ _
  have hname : ((d.blanks ++ (d.written ++ (d.after ++ [';']))).dropWhile String.isBlank).takeWhile
      isWordChar = d.readName := by
    rw [List.dropWhile_append_of_pos d.blanks_wf]
    obtain ⟨c, l, hl⟩ := List.exists_cons_of_ne_nil hn
    rw [hl, List.cons_append,
      List.dropWhile_cons_of_neg (by simp [not_blank_of_name (hw c (hl ▸ .head _))]), ←List.cons_append,
      ←hl, List.takeWhile_append]
    have hafter : (d.after ++ [';']).takeWhile isWordChar = [] := by
      cases ha : d.after
      case nil        => rfl
      case cons c' l' =>
        rw [List.cons_append,
          List.takeWhile_cons_of_neg (by simp [not_word_of_blank (d.after_wf c' (ha ▸ .head _))])]
    split
    case isTrue h  =>
      rw [hafter, List.append_nil]
      exact ((List.takeWhile_prefix _).eq_of_length h).symm
    case isFalse h => rfl
  have hp : "mod".toList.isPrefixOf
      ("mod".toList ++ (d.blanks ++ (d.written ++ (d.after ++ [';'])))) = true := by
    rw [List.isPrefixOf_iff_prefix]
    exact List.prefix_append _ _
  have hdrop : ("mod".toList ++ (d.blanks ++ (d.written ++ (d.after ++ [';'])))).drop 3 =
      d.blanks ++ (d.written ++ (d.after ++ [';'])) :=
    rfl
  unfold matchMod
  dsimp only
  rw [hp, hdrop, hname]
  by_cases h : d.readName = [] <;> simp only [h, hblanks, not_true, not_false_eq_true, ne_eq,
    and_true, and_false, if_true, if_false]

-- What the search for a declaration finds is the beginning of the name.
theorem findSome?_text : d.text.tails.findSome? matchMod =
    if d.readName = [] then none else some (.ofList d.readName) := by
  unfold text
  rw [d.visibility_wf.skips]
  have hcons : "mod".toList ++ (d.blanks ++ (d.written ++ (d.after ++ [';']))) =
      'm' :: (['o', 'd'] ++ (d.blanks ++ (d.written ++ (d.after ++ [';'])))) :=
    rfl
  have hm := d.matchMod_text
  rw [hcons] at hm ⊢
  rw [List.tails_cons, List.findSome?_cons, hm]
  by_cases hn : d.readName = []
  case neg => rw [if_neg hn]
  case pos =>
    -- Nothing after the keyword is taken for a declaration either.
    have hafter : Skips (d.after ++ [';']) [] := .append (.blanks d.after_wf) (.mark (by decide))
    have hwritten : Skips (d.written ++ (d.after ++ [';'])) [] := by
      refine .append ?_ hafter
      rw [List.append_assoc]
      exact .name d.written_wf.right d.after_wf (by decide)
    have hrest : Skips (['o', 'd'] ++ (d.blanks ++ (d.written ++ (d.after ++ [';'])))) [] :=
      .append (.of_ne (by simp)) (.append (.blanks d.blanks_wf) hwritten)
    rw [if_pos hn, ←List.append_nil (['o', 'd'] ++ _)]
    exact hrest

theorem ne_brace_of_text : ∀ c ∈ d.text, c ≠ '\x7b' := by
  unfold text
  simp only [List.forall_mem_append]
  refine ⟨d.visibility_wf.ne_brace, ?_, fun c h => ne_brace_of_blank (d.blanks_wf c h),
    fun c h => ne_brace_of_name (d.written_wf.right c h), fun c h => ne_brace_of_blank (d.after_wf c h), ?_⟩
  · exact (by simp : ∀ c ∈ ['m', 'o', 'd'], c ≠ '\x7b')
  · simp

end Declaration

end Grammar

section Resolution

variable {src : Sources} {crate file dir dir' : FilePath} {d : Declaration} {unit : KnowledgeUnit}
variable {name name' : String}

-- The directory with the files of the modules that a file declares.
def moduleDir (crate file : FilePath) : FilePath :=
  if file = crate ++ ["src", "lib.rs"] ∨ file = crate ++ ["src", "main.rs"] ∨
      file.getLast? = some "mod.rs" then
    file.parent
  else
    file.parent ++ [FilePath.stem (file.getLast?.getD "")]

-- The file of a declared module, by the rule of the language.
def moduleFile (src : Sources) (crate file : FilePath) (d : Declaration) : Option FilePath :=
  resolveModPath src (moduleDir crate file) (.ofList d.name)

-- Neither `name.rs` nor `name/mod.rs` exists.
def NoFile (src : Sources) (dir : FilePath) (name : String) : Prop :=
  src.present (dir ++ [name ++ ".rs"]) = false ∧ src.present (dir ++ [name, "mod.rs"]) = false

theorem resolveModPath_eq_none_iff : resolveModPath src dir name = none ↔ NoFile src dir name := by
  simp [resolveModPath, NoFile]

theorem resolveModPath_eq_some_iff {path : FilePath} : resolveModPath src dir name = some path ↔
    src.present (dir ++ [name ++ ".rs"]) ∧ path = dir ++ [name ++ ".rs"] ∨
    src.present (dir ++ [name ++ ".rs"]) = false ∧ src.present (dir ++ [name, "mod.rs"]) ∧
      path = dir ++ [name, "mod.rs"] := by
  unfold resolveModPath
  rw [List.find?_cons, List.find?_cons, List.find?_nil]
  cases src.present (dir ++ [name ++ ".rs"]) <;> cases src.present (dir ++ [name, "mod.rs"]) <;>
    simp [eq_comm]

theorem target_of_isUnit (h : d.IsUnit unit) : (provider src).target file unit =
    .ok (if d.readName = [] then none else resolveModPath src file.parent (.ofList d.readName)) := by
  obtain ⟨hk, ht, hr⟩ := h
  have hs : (String.ofList d.text).hasInfix ";" := by
    rw [String.hasInfix_singleton (c := ';') rfl, String.toList_ofList]
    simp [Declaration.text]
  have hb : ¬(String.ofList d.text).hasInfix "\x7b" := by
    rw [String.hasInfix_singleton (c := '\x7b') rfl, String.toList_ofList]
    exact fun h => Declaration.ne_brace_of_text _ h rfl
  show Except.ok (parseSubmodule src file unit) = _
  unfold parseSubmodule
  simp only [hr]
  rw [if_pos ⟨hk, ht, hs, hb⟩, String.toList_ofList, Declaration.findSome?_text]
  split <;> rfl

-- Two lookups agree iff they are the same, neither finds a file, or the file `name/mod.rs` of one is
-- the file `mod.rs` that the other one looks for below `name`.
theorem resolveModPath_eq_iff (hd : dir' = dir ∨ ∃ part, dir' = dir ++ [part]) :
    resolveModPath src dir name = resolveModPath src dir' name' ↔
      (dir' = dir ∧ name = name') ∨ (NoFile src dir name ∧ NoFile src dir' name') ∨
      (dir' = dir ++ [name] ∧ name' = "mod" ∧ src.present (dir ++ [name ++ ".rs"]) = false ∧
        src.present (dir ++ [name, "mod.rs"])) := by
  have hrs : ∀ {s t : String}, s ++ ".rs" = t ++ ".rs" → s = t := fun h => by
    simpa [←String.toList_inj] using h
  constructor
  case mp =>
    intro h
    cases hp : resolveModPath src dir name
    case none =>
      exact .inr (.inl ⟨resolveModPath_eq_none_iff.mp hp, resolveModPath_eq_none_iff.mp (h ▸ hp)⟩)
    case some path =>
      have h₁ := resolveModPath_eq_some_iff.mp hp
      have h₂ := resolveModPath_eq_some_iff.mp (h.symm.trans hp)
      obtain rfl | ⟨part, rfl⟩ := hd
      case inl =>
        left
        obtain ⟨_, rfl⟩ | ⟨_, _, rfl⟩ := h₁ <;> obtain ⟨_, he⟩ | ⟨_, _, he⟩ := h₂
        · exact ⟨rfl, hrs (by simpa using he)⟩
        · simp at he
        · simp at he
        · exact ⟨rfl, by simpa using he⟩
      case inr =>
        right; right
        obtain ⟨_, rfl⟩ | ⟨hn, hm, rfl⟩ := h₁ <;> obtain ⟨_, he⟩ | ⟨_, _, he⟩ := h₂
        · have hl := congrArg List.length he
          simp at hl
        · have hl := congrArg List.length he
          simp at hl
        · simp only [List.append_assoc, List.append_cancel_left_eq, List.cons_append, List.nil_append,
            List.cons.injEq, and_true] at he
          obtain ⟨rfl, he⟩ := he
          exact ⟨rfl, (hrs (s := "mod") he).symm, hn, hm⟩
        · have hl := congrArg List.length he
          simp at hl
  case mpr =>
    rintro (⟨rfl, rfl⟩ | ⟨h₁, h₂⟩ | ⟨rfl, rfl, h₁, h₂⟩)
    case inl => rfl
    case inr.inl => rw [resolveModPath_eq_none_iff.mpr h₁, resolveModPath_eq_none_iff.mpr h₂]
    case inr.inr =>
      rw [resolveModPath_eq_some_iff.mpr (.inr ⟨h₁, h₂, rfl⟩), eq_comm]
      have hx : dir ++ [name] ++ ["mod" ++ ".rs"] = dir ++ [name, "mod.rs"] := by simp
      exact resolveModPath_eq_some_iff.mpr (.inl ⟨hx ▸ h₂, hx.symm⟩)

-- What has to hold for a declaration to be followed by the rule: the files of the declared modules
-- are beside the declaring file, or nothing is found either way.
def Follows (src : Sources) (crate file : FilePath) (d : Declaration) : Prop :=
  (moduleDir crate file = file.parent ∧ d.readName = d.name) ∨
  ((d.readName = [] ∨ NoFile src file.parent (.ofList d.readName)) ∧
    NoFile src (moduleDir crate file) (.ofList d.name)) ∨
  (d.readName ≠ [] ∧ moduleDir crate file = file.parent ++ [.ofList d.readName] ∧
    String.ofList d.name = "mod" ∧ src.present (file.parent ++ [.ofList d.readName ++ ".rs"]) = false ∧
    src.present (file.parent ++ [.ofList d.readName, "mod.rs"]))

theorem target_iff (h : d.IsUnit unit) :
    (provider src).target file unit = .ok (moduleFile src crate file d) ↔ Follows src crate file d := by
  have hdir : moduleDir crate file = file.parent ∨ ∃ part, moduleDir crate file = file.parent ++ [part] := by
    unfold moduleDir
    split
    case isTrue  => exact .inl rfl
    case isFalse => exact .inr ⟨_, rfl⟩
  rw [target_of_isUnit h, Except.ok.injEq]
  unfold moduleFile Follows
  by_cases hn : d.readName = []
  case pos =>
    have hne : [] ≠ d.name := d.name_ne.symm
    rw [if_pos hn, eq_comm, resolveModPath_eq_none_iff]
    simp [hn, hne]
  case neg =>
    have hinj : String.ofList d.readName = String.ofList d.name ↔ d.readName = d.name := by
      rw [←String.toList_inj, String.toList_ofList, String.toList_ofList]
    rw [if_neg hn, resolveModPath_eq_iff hdir, hinj]
    simp [hn]

-- The crate declares a module `b` in `src/lib.rs`, and another one in `src/a.rs`.
def nestedCrate : Sources where
  runtime := Sample.runtime
  files   := Sample.fileSystem []
  present := [["l", "src", "lib.rs"], ["l", "src", "a.rs"], ["l", "src", "b.rs"],
    ["l", "src", "a", "b.rs"]].contains

def nestedDeclaration : Declaration where
  visibility    := []
  blanks        := [' ']
  raw           := false
  name          := ['b']
  after         := []
  visibility_wf := .nil
  blanks_ne     := by decide
  blanks_wf     := List.forall_mem_singleton.mpr rfl
  name_ne       := by decide
  name_wf       := List.forall_mem_singleton.mpr rfl
  after_wf      := by simp

def nestedUnit : KnowledgeUnit where
  id        := "src/a.rs:b"
  kind      := .module
  name      := "b"
  path      := "/l/src/a.rs"
  signature := none
  docstring := none
  summary   := none
  codeHash  := ""
  tags      := []
  metadata  := [("node_type", .str "mod_item"), ("raw_code", .str "mod b;")]
  relations := []

theorem nestedDeclaration_isUnit : nestedDeclaration.IsUnit nestedUnit :=
  ⟨rfl, by decide +kernel, by decide +kernel⟩

theorem target_iff_nested : nestedDeclaration.IsUnit nestedUnit ∧
    ((provider nestedCrate).target ["l", "src", "a.rs"] nestedUnit =
        .ok (moduleFile nestedCrate ["l"] ["l", "src", "a.rs"] nestedDeclaration) ↔
      Follows nestedCrate ["l"] ["l", "src", "a.rs"] nestedDeclaration) :=
  ⟨nestedDeclaration_isUnit, target_iff nestedDeclaration_isUnit⟩

theorem nested_not_followed :
    nestedDeclaration.IsUnit nestedUnit ∧
    (provider nestedCrate).target ["l", "src", "a.rs"] nestedUnit = .ok (some ["l", "src", "b.rs"]) ∧
    moduleFile nestedCrate ["l"] ["l", "src", "a.rs"] nestedDeclaration =
      some ["l", "src", "a", "b.rs"] ∧
    (provider nestedCrate).target ["l", "src", "a.rs"] nestedUnit ≠
      .ok (moduleFile nestedCrate ["l"] ["l", "src", "a.rs"] nestedDeclaration) := by
  have hcode : (provider nestedCrate).target ["l", "src", "a.rs"] nestedUnit =
      .ok (some ["l", "src", "b.rs"]) := by
    decide +kernel
  have hrule : moduleFile nestedCrate ["l"] ["l", "src", "a.rs"] nestedDeclaration =
      some ["l", "src", "a", "b.rs"] := by
    decide +kernel
  refine ⟨nestedDeclaration_isUnit, hcode, hrule, ?_⟩
  rw [hcode, hrule]
  simp

end Resolution

end Rust
