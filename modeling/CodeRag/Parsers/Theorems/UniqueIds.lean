import CodeRag.Parsers.TreeSitter

-- The ids of the units of a file are pairwise distinct.

namespace TreeSitterParser

variable {rt : Runtime} {config : LanguageConfig} {source : List UInt8} {filePath : String}

-- Node `n` with parent `p` occurs in the tree of a node that has the parent `parent` itself.
inductive Occurs : Option Node → Node → Option Node → Node → Prop
  | self {parent : Option Node} {node : Node} : Occurs parent node parent node
  | child {parent p : Option Node} {node c n : Node} :
    c ∈ node.children → Occurs (some node) c p n → Occurs parent node p n

-- The names of the units of a tree contain neither dots nor hashes.
def PlainNames (rt : Runtime) (config : LanguageConfig) (parent : Option Node) (root : Node) : Prop :=
  ∀ p n, Occurs parent root p n → (config.canonicalMap.lookup n.type).isSome →
    '.' ∉ (resolveName rt n p).toList ∧ '#' ∉ (resolveName rt n p).toList

-- Bytes that cannot be decoded are replaced, so no text becomes empty.
def Decodes (rt : Runtime) : Prop :=
  ∀ bytes, bytes ≠ [] → rt.decode bytes ≠ ""

theorem PlainNames.child {parent : Option Node} {node c : Node} (h : PlainNames rt config parent node)
    (hc : c ∈ node.children) : PlainNames rt config (some node) c :=
  fun p n ho => h p n (.child hc ho)

section Labels

-- The part of an id between two dots.
structure Word (l : String) : Prop where
  nonempty : l ≠ ""
  dot      : '.' ∉ l.toList

structure Plain (name : String) : Prop extends Word name where
  hash : '#' ∉ name.toList

theorem decodedText_ne_empty (hd : Decodes rt) {node : Node} {name : String}
    (h : decodedText rt node = some name) : name ≠ "" := by
  unfold decodedText at h
  split at h <;> cases h
  exact hd _ (by simpa using ‹_›)

theorem resolveName_ne_empty (hd : Decodes rt) {node : Node} {parent : Option Node} :
    resolveName rt node parent ≠ "" := by
  unfold resolveName
  dsimp only
  split
  case h_1 name hn =>
    obtain ⟨n, _, hn⟩ := Option.bind_eq_some_iff.mp hn
    exact decodedText_ne_empty hd hn
  case h_2 =>
    split
    case h_1 => decide
    case h_2 p =>
      generalize Option.bind _ p.childByFieldName = n
      cases h : n.bind (decodedText rt)
      case none      => decide
      case some name =>
        obtain ⟨n, _, hn⟩ := Option.bind_eq_some_iff.mp h
        exact decodedText_ne_empty hd hn

-- The `k`-th unit of a scope with the given name.
def label (name : String) (k : Nat) : String :=
  if k = 1 then name else s!"{name}#{k}"

theorem toList_label {name : String} {k : Nat} (hk : k ≠ 1) :
    (label name k).toList = name.toList ++ '#' :: (toString k).toList := by
  have h : label name k = name ++ "#" ++ toString k := by
    rw [label, if_neg hk]
    rfl
  rw [h, String.toList_append, String.toList_append, List.append_assoc]
  rfl

theorem Plain.label {name : String} (h : Plain name) {k : Nat} : Word (label name k) := by
  by_cases hk : k = 1
  case pos =>
    rw [TreeSitterParser.label, if_pos hk]
    exact h.toWord
  case neg =>
    refine ⟨fun he => ?_, ?_⟩
    · have hl := congrArg String.toList he
      rw [toList_label hk] at hl
      simp at hl
    · rw [toList_label hk]
      simp only [List.mem_append, List.mem_cons, not_or]
      refine ⟨h.dot, by decide, fun hc => ?_⟩
      exact absurd (Nat.isDigit_toString _ hc) (by decide)

-- A name and its number can be read off the label.
theorem label_inj {name name' : String} {k k' : Nat} (h : Plain name) (h' : Plain name')
    (he : label name k = label name' k') : name = name' ∧ k = k' := by
  have split : ∀ {name : String} {k : Nat}, Plain name →
      (label name k).toList.takeWhile (· ≠ '#') = name.toList ∧
        (label name k).toList.drop name.toList.length =
          if k = 1 then [] else '#' :: (toString k).toList := by
    intro name k h
    have hn : ∀ c ∈ name.toList, decide (c ≠ '#') = true :=
      fun c hc => by simpa using fun he : c = '#' => h.hash (he ▸ hc)
    by_cases hk : k = 1
    case pos => simpa [label, hk] using hn
    case neg =>
      rw [toList_label hk, List.takeWhile_append_of_pos hn, List.drop_left, if_neg hk]
      simp
  have ht : name.toList = name'.toList := by
    rw [←(split h).left, ←(split (k := k') h').left, he]
  have hd : (if k = 1 then [] else '#' :: (toString k).toList) =
      if k' = 1 then [] else '#' :: (toString k').toList := by
    rw [←(split h).right, ←(split (k := k') h').right, ht, he]
  refine ⟨String.toList_inj.mp ht, ?_⟩
  split at hd <;> split at hd
  case isTrue.isTrue hk hk' => exact hk.trans hk'.symm
  case isFalse.isFalse      => exact Nat.toString_inj (String.toList_inj.mp (List.cons.inj hd).right)
  all_goals simp at hd

end Labels

section Scopes

-- The scope below the units with the given labels.
def scopeOf (ls : List String) : Option String :=
  if ls = [] then none else some (.joinWith "." ls)

theorem joinWith_ne_empty {ls : List String} (hn : ls ≠ []) (hw : ∀ l ∈ ls, Word l) :
    String.joinWith "." ls ≠ "" := by
  have hj : ∀ {s s' : String}, s ≠ "" → s ++ s' ≠ "" := by
    intro s s' hs he
    have := congrArg String.toList he
    simp [hs] at this
  match ls with
  | [l]          => exact (hw l (.head _)).nonempty
  | l :: l' :: _ =>
    rw [String.joinWith_cons_cons, String.append_assoc']
    exact hj (hw l (.head _)).nonempty

theorem qualifiedName_eq {ls : List String} {name : String} {counts : String → Nat}
    (hw : ∀ l ∈ ls, Word l) : qualifiedName name (scopeOf ls) counts =
      .joinWith "." (ls ++ [label name (counts name + 1)]) := by
  unfold qualifiedName scopeOf
  by_cases hn : ls = []
  case pos =>
    subst hn
    rfl
  case neg =>
    rw [if_neg hn, String.joinWith_append_singleton hn]
    dsimp only
    rw [if_neg (joinWith_ne_empty hn hw)]
    rfl

-- The id of a unit that belongs to the scope `ls`, where the numbers of its name between `c` and `c'`
-- are new.
def Labelled (filePath : String) (ls : List String) (c c' : String → Nat) (u : KnowledgeUnit) : Prop :=
  ∃ name k rest, Plain name ∧ c name < k ∧ k ≤ c' name ∧ (∀ l ∈ rest, Word l) ∧
    u.id = filePath ++ ":" ++ .joinWith "." (ls ++ label name k :: rest)

-- Different numbers of the same name lead to different ids.
theorem Labelled.ne {ls : List String} {c c' c'' : String → Nat} {u u' : KnowledgeUnit}
    (hw : ∀ l ∈ ls, Word l) (h : Labelled filePath ls c c' u) (h' : Labelled filePath ls c' c'' u') :
    u.id ≠ u'.id := by
  obtain ⟨name, k, rest, hp, _, hk, hr, hu⟩ := h
  obtain ⟨name', k', rest', hp', hk', _, hr', hu'⟩ := h'
  intro he
  rw [hu, hu'] at he
  have words : ∀ {name : String} {k : Nat} {rest : List String}, Plain name →
      (∀ l ∈ rest, Word l) → ∀ l ∈ ls ++ label name k :: rest, '.' ∉ l.toList := by
    intro name k rest hp hr l hl
    obtain hl | hl := List.mem_append.mp hl
    case inl => exact (hw l hl).dot
    case inr =>
      obtain rfl | hl := List.mem_cons.mp hl
      · exact hp.label.dot
      · exact (hr l hl).dot
  have hl := String.joinWith_inj (by rfl) (by simp) (by simp) (words hp hr) (words hp' hr')
    (String.append_left_cancel he)
  have hl := (List.cons.inj (List.append_cancel_left hl)).left
  obtain ⟨rfl, rfl⟩ := label_inj hp hp' hl
  exact absurd hk' (Nat.not_lt.mpr hk)

-- The units that are found in the scope `ls` while the counts of the names go from `c` to `c'`.
structure Numbered (filePath : String) (ls : List String) (c : String → Nat)
    (us : List KnowledgeUnit) (c' : String → Nat) : Prop where
  grows    : ∀ name, c name ≤ c' name
  labelled : ∀ u ∈ us, Labelled filePath ls c c' u
  nodup    : (us.map (·.id)).Nodup

variable {ls : List String} {c c' c'' : String → Nat} {us us' : List KnowledgeUnit}

theorem Labelled.mono {d d' : String → Nat} {u : KnowledgeUnit} (h : Labelled filePath ls c c' u)
    (hd : ∀ name, d name ≤ c name) (hd' : ∀ name, c' name ≤ d' name) :
    Labelled filePath ls d d' u :=
  let ⟨name, k, rest, hp, hk, hk', hr, hu⟩ := h
  ⟨name, k, rest, hp, (hd name).trans_lt hk, hk'.trans (hd' name), hr, hu⟩

theorem Numbered.nil : Numbered filePath ls c [] c where
  grows _  := le_rfl
  labelled := nofun
  nodup    := .nil

theorem Numbered.append (hw : ∀ l ∈ ls, Word l) (h : Numbered filePath ls c us c')
    (h' : Numbered filePath ls c' us' c'') : Numbered filePath ls c (us ++ us') c'' where
  grows name   := (h.grows name).trans (h'.grows name)
  labelled u hu := by
    obtain hu | hu := List.mem_append.mp hu
    · exact (h.labelled u hu).mono (fun _ => le_rfl) h'.grows
    · exact (h'.labelled u hu).mono h.grows fun _ => le_rfl
  nodup        := by
    rw [List.map_append]
    refine h.nodup.append h'.nodup fun i hi hi' => ?_
    obtain ⟨u, hu, rfl⟩ := List.mem_map.mp hi
    obtain ⟨u', hu', he⟩ := List.mem_map.mp hi'
    exact Labelled.ne hw (h.labelled u hu) (h'.labelled u' hu') he.symm

-- A unit together with the units below it, which have a scope of their own.
theorem Numbered.scope {name : String} {u : KnowledgeUnit} {d : String → Nat} (hp : Plain name)
    (hw : ∀ l ∈ ls, Word l)
    (hu : u.id = filePath ++ ":" ++ .joinWith "." (ls ++ [label name (c name + 1)]))
    (h : Numbered filePath (ls ++ [label name (c name + 1)]) d us c') :
    Numbered filePath ls c (u :: us) (Function.update c name (c name + 1)) := by
  have hc : c name + 1 ≤ Function.update c name (c name + 1) name := by simp
  have hall : ∀ u' ∈ us, ∃ l rest, (∀ l' ∈ l :: rest, Word l') ∧
      u'.id = filePath ++ ":" ++ .joinWith "." (ls ++ label name (c name + 1) :: l :: rest) := by
    intro u' hu'
    obtain ⟨name', k, rest, hp', _, _, hr, he⟩ := h.labelled u' hu'
    refine ⟨label name' k, rest, List.forall_mem_cons.mpr ⟨hp'.label, hr⟩, ?_⟩
    rwa [List.append_assoc] at he
  refine ⟨fun n => ?_, ?_, ?_⟩
  · by_cases hn : n = name
    case pos => simp [hn]
    case neg => simp [hn]
  · refine List.forall_mem_cons.mpr ⟨⟨name, _, [], hp, Nat.lt_succ_self _, hc, nofun, hu⟩, ?_⟩
    intro u' hu'
    obtain ⟨l, rest, hr, he⟩ := hall u' hu'
    exact ⟨name, _, l :: rest, hp, Nat.lt_succ_self _, hc, hr, he⟩
  · rw [List.map_cons, List.nodup_cons]
    refine ⟨fun hm => ?_, h.nodup⟩
    obtain ⟨u', hu', hi⟩ := List.mem_map.mp hm
    obtain ⟨l, rest, hr, he⟩ := hall u' hu'
    rw [he, hu] at hi
    have hd : ∀ l' ∈ ls ++ [label name (c name + 1)], '.' ∉ l'.toList := by
      intro l' hl'
      obtain hl' | hl' := List.mem_append.mp hl'
      · exact (hw l' hl').dot
      · exact List.mem_singleton.mp hl' ▸ hp.label.dot
    have hd' : ∀ l' ∈ ls ++ label name (c name + 1) :: l :: rest, '.' ∉ l'.toList := by
      intro l' hl'
      obtain hl' | hl' := List.mem_append.mp hl'
      · exact (hw l' hl').dot
      · obtain rfl | hl' := List.mem_cons.mp hl'
        · exact hp.label.dot
        · exact (hr l' hl').dot
    have hl := String.joinWith_inj (by rfl) (by simp) (by simp) hd' hd
      (String.append_left_cancel hi)
    simpa using List.append_cancel_left hl

end Scopes

section Tree

variable {ls : List String} {counts : String → Nat} {name : String} {parent : Option Node}
variable {prev : List Node}

private theorem word_append (hw : ∀ l ∈ ls, Word l) (hp : Plain name) {k : Nat} :
    ∀ l ∈ ls ++ [label name k], Word l := by
  intro l hl
  obtain hl | hl := List.mem_append.mp hl
  case inl => exact hw l hl
  case inr => exact List.mem_singleton.mp hl ▸ hp.label

private theorem scopeOf_append (hw : ∀ l ∈ ls, Word l) :
    some (qualifiedName name (scopeOf ls) counts) = scopeOf (ls ++ [label name (counts name + 1)]) := by
  rw [qualifiedName_eq hw, scopeOf, if_neg (by simp)]

private theorem id_processNode (hw : ∀ l ∈ ls, Word l) {node : Node} :
    (processNode rt config source filePath node parent prev
      (qualifiedName name (scopeOf ls) counts)).id =
      filePath ++ ":" ++ .joinWith "." (ls ++ [label name (counts name + 1)]) := by
  rw [←qualifiedName_eq hw]
  rfl

mutual

-- The units of a node have new numbers in the scope of the node.
theorem numbered_recursiveDistill (hd : Decodes rt) {ls : List String} {parent : Option Node}
    {prev : List Node} {counts : String → Nat} (hw : ∀ l ∈ ls, Word l) : (node : Node) →
    PlainNames rt config parent node →
    Numbered filePath ls counts
      (recursiveDistill rt config source filePath (scopeOf ls) parent prev counts node).1
      (recursiveDistill rt config source filePath (scopeOf ls) parent prev counts node).2
  | .mk type field text startByte endByte startRow endRow children, h => by
    have hc := fun c hc => h.child (c := c) hc
    have hplain := h _ _ .self
    have hne : resolveName rt (.mk type field text startByte endByte startRow endRow children) parent ≠ "" :=
      resolveName_ne_empty hd
    unfold recursiveDistill
    cases hm : config.canonicalMap.lookup type
    case none => exact numbered_distillChildren hd hw children hc
    case some canonical =>
      have hplain := hplain (Option.isSome_iff_exists.mpr ⟨_, hm⟩)
      have hp : Plain _ := ⟨⟨hne, hplain.left⟩, hplain.right⟩
      dsimp only
      split
      case isTrue =>
        -- The units below a class, function or method belong to its own scope.
        rw [scopeOf_append hw]
        exact .scope hp hw (id_processNode hw)
          (numbered_distillChildren hd (word_append hw hp) children hc)
      case isFalse =>
        -- A module shares its scope with the units below it.
        exact .append hw (.scope hp hw (id_processNode hw) (.nil (c := counts)))
          (numbered_distillChildren hd hw children hc)

theorem numbered_distillChildren (hd : Decodes rt) {ls : List String} {parent : Node}
    {prev : List Node} {counts : String → Nat} (hw : ∀ l ∈ ls, Word l) : (nodes : List Node) →
    (∀ c ∈ nodes, PlainNames rt config (some parent) c) →
    Numbered filePath ls counts
      (recursiveDistill.distillChildren rt config source filePath (scopeOf ls) parent prev counts
        nodes).1
      (recursiveDistill.distillChildren rt config source filePath (scopeOf ls) parent prev counts
        nodes).2
  | [], _           => .nil
  | node :: nodes, h => by
    unfold recursiveDistill.distillChildren
    exact .append hw (numbered_recursiveDistill hd hw node (h node (.head _)))
      (numbered_distillChildren hd hw nodes fun c hc => h c (.tail _ hc))

end

end Tree

-- However often names repeat, the units of a file have pairwise distinct ids.
theorem ids_nodup (config : LanguageConfig) (source : List UInt8) (filePath : String) (root : Node)
    (hd : Decodes rt) (hn : PlainNames rt config none root) :
    ((recursiveDistill rt config source filePath none none [] (fun _ => 0) root).1.map (·.id)).Nodup :=
  (numbered_recursiveDistill hd (nofun : ∀ l ∈ ([] : List String), Word l) root hn).nodup

section Sample

private def ascii : Runtime where
  lower         := id
  decode bytes  := .ofList (bytes.map fun b => .ofNat b.toNat)
  sha256        := id
  loadGrammar _ := .error .importError

private def language : LanguageConfig where
  id             := "toy"
  extensions     := []
  package        := "toy"
  canonicalMap   := [("class", "CLASS"), ("function", "FUNCTION")]
  bodyFields     := []
  fallbackBodies := []
  stubSuffix     := ""

private def name (c : UInt8) : Node :=
  .mk "identifier" none (some [c]) 0 0 0 0 []

private def function : Node :=
  .mk "function" none (some [1]) 0 0 0 0 [name 102]

-- Two functions `f` in a class, and two next to it.
private def file : Node :=
  .mk "file" none none 0 0 0 0
    [function, .mk "class" none (some [2]) 0 0 0 0 [name 67, function, function], function]

private theorem decodes_ascii : Decodes ascii := by
  intro bytes hb he
  have := congrArg String.toList he
  simp [ascii, hb] at this

theorem ids_nodup_sample :
    ((recursiveDistill ascii language [] "a" none none [] (fun _ => 0) file).1.map (·.id)).Nodup := by
  refine ids_nodup language [] "a" file decodes_ascii ?_
  have hname : ∀ p p' n c, Occurs p (name c) p' n → (language.canonicalMap.lookup n.type).isSome = false := by
    rintro p p' n c (_ | ⟨hc, _⟩)
    · rfl
    · cases hc
  have hfun : ∀ p, PlainNames ascii language p function := by
    rintro p p' n (_ | ⟨hc, ho⟩) hs
    · rw [show resolveName ascii function p = "f" by rfl]
      decide
    · obtain rfl := List.mem_singleton.mp hc
      exact absurd hs (by rw [hname _ _ _ _ ho]; decide)
  rintro p n (_ | ⟨hc, ho⟩) hs
  · cases hs
  · simp only [file, Node.children, List.mem_cons, List.not_mem_nil, or_false] at hc
    obtain rfl | rfl | rfl := hc
    · exact hfun _ _ _ ho hs
    · obtain _ | ⟨hc, ho⟩ := ho
      · rw [show resolveName ascii (.mk "class" none (some [2]) 0 0 0 0 [name 67, function, function])
          (some file) = "C" by rfl]
        decide
      · simp only [Node.children, List.mem_cons, List.not_mem_nil, or_false] at hc
        obtain rfl | rfl | rfl := hc
        · exact absurd hs (by rw [hname _ _ _ _ ho]; decide)
        · exact hfun _ _ _ ho hs
        · exact hfun _ _ _ ho hs
    · exact hfun _ _ _ ho hs

end Sample

end TreeSitterParser
