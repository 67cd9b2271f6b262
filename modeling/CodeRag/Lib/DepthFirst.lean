import Mathlib

-- Depth-first traversals that go at most a number of levels deep and pass over nodes they have seen.

universe u

-- The nodes that can be reached from the roots in a number of hops.
inductive Reaches {α : Type u} (hop : α → α → Prop) (root : α → Prop) : Nat → α → Prop
  | root {a} : root a → Reaches hop root 0 a
  | hop {k a b} : Reaches hop root k a → hop a b → Reaches hop root (k + 1) b

namespace DepthFirst

variable {α : Type u} [DecidableEq α] {next : α → List α} {n : Nat} {seen seen' : List α}
variable {a b : α} {l path w : List α} {kept : List (List α)}

-- The nodes that have been seen after a visit of a node and of `n - 1` levels of nodes below it.
def visit (next : α → List α) : Nat → List α → α → List α
  | 0, seen, _     => seen
  | n + 1, seen, a => if a ∈ seen then seen else (next a).foldl (visit next n) (seen ++ [a])

theorem visit_of_mem (h : a ∈ seen) : visit next n seen a = seen := by
  cases n
  case zero => rfl
  case succ => exact if_pos h

omit [DecidableEq α] in
theorem extends_foldl {f : List α → α → List α} (h : ∀ seen a, seen <+: f seen a) :
    seen <+: l.foldl f seen := by
  induction l generalizing seen
  case nil          => exact List.prefix_rfl
  case cons a l ih  => exact (h seen a).trans ih

theorem prefix_visit : seen <+: visit next n seen a := by
  induction n generalizing seen a
  case zero => exact List.prefix_rfl
  case succ n ih =>
    unfold visit
    split
    case isTrue  => exact List.prefix_rfl
    case isFalse => exact (List.prefix_append _ _).trans (extends_foldl fun _ _ => ih)

theorem prefix_foldl_visit : seen <+: l.foldl (visit next n) seen :=
  extends_foldl fun _ _ => prefix_visit

theorem mem_visit : a ∈ visit next (n + 1) seen a := by
  unfold visit
  split
  case isTrue h => exact h
  case isFalse  => exact prefix_foldl_visit.subset (by simp)

theorem mem_foldl_visit (h : a ∈ l) : a ∈ l.foldl (visit next (n + 1)) seen := by
  induction l generalizing seen
  case nil => cases h
  case cons b l ih =>
    cases h
    case head   =>
      rw [List.foldl_cons]
      exact prefix_foldl_visit.subset mem_visit
    case tail h => exact ih h

omit [DecidableEq α] in
theorem nodup_foldl {f : List α → α → List α} (h : ∀ seen a, seen.Nodup → (f seen a).Nodup)
    (hn : seen.Nodup) : (l.foldl f seen).Nodup := by
  induction l generalizing seen
  case nil         => exact hn
  case cons a l ih => exact ih (h seen a hn)

theorem nodup_visit (h : seen.Nodup) : (visit next n seen a).Nodup := by
  induction n generalizing seen a
  case zero => exact h
  case succ n ih =>
    unfold visit
    split
    case isTrue     => exact h
    case isFalse ha => exact nodup_foldl (fun _ _ => ih) (h.append (List.nodup_singleton a) (by simpa))

-- The nodes of a list, each one once.
def distinct (l : List α) : List α :=
  l.eraseDups

-- A node that occurs again is passed over.
theorem foldl_visit_filter (h : a ∈ seen ∨ n = 0) :
    (l.filter (!· == a)).foldl (visit next n) seen = l.foldl (visit next n) seen := by
  induction l generalizing seen
  case nil => rfl
  case cons b l ih =>
    by_cases hb : b = a
    case pos =>
      have hv : visit next n seen b = seen := by
        obtain h | rfl := h
        · exact visit_of_mem (hb ▸ h)
        · rfl
      simp only [hb, List.filter_cons_of_neg, beq_self_eq_true, Bool.not_true, Bool.false_eq_true,
        not_false_eq_true, List.foldl_cons]
      rw [ih h, ←hb, hv]
    case neg =>
      rw [List.filter_cons_of_pos (by simpa using hb)]
      exact ih (h.imp_left fun h => prefix_visit.subset h)

theorem distinct_cons : distinct (a :: l) = a :: distinct (l.filter (!· == a)) :=
  List.eraseDups_cons

@[simp]
theorem mem_distinct : a ∈ distinct l ↔ a ∈ l :=
  List.mem_eraseDups

theorem foldl_visit_distinct :
    (distinct l).foldl (visit next n) seen = l.foldl (visit next n) seen := by
  induction hl : l.length using Nat.strong_induction_on generalizing l seen
  case h m ih =>
    cases l
    case nil => rfl
    case cons b l =>
      have hlen : (l.filter (!· == b)).length < m := by
        have := List.length_filter_le (!· == b) l
        simp only [List.length_cons] at hl
        omega
      rw [distinct_cons, List.foldl_cons, List.foldl_cons, ih _ hlen rfl]
      refine foldl_visit_filter ?_
      cases n
      case zero => exact .inr rfl
      case succ => exact .inl mem_visit

theorem nodup_distinct : (distinct l).Nodup := by
  induction hl : l.length using Nat.strong_induction_on generalizing l
  case h m ih =>
    cases l
    case nil => exact .nil
    case cons b l =>
      have hlen : (l.filter (!· == b)).length < m := by
        have := List.length_filter_le (!· == b) l
        simp only [List.length_cons] at hl
        omega
      rw [distinct_cons]
      exact .cons (by simp) (ih _ hlen rfl)

-- The walks of at most `n` nodes that extend a path with a node and go on from there, in depth-first
-- order. The end of a walk comes first.
def walks (next : α → List α) : Nat → List α → α → List (List α)
  | 0, _, _        => []
  | n + 1, path, a => (a :: path) :: (next a).flatMap (walks next n (a :: path))

def ends (kept : List (List α)) : List α :=
  kept.filterMap List.head?

-- A walk is passed over when the walk up to its last hop was, or when its end has been met before.
def keep (kept : List (List α)) : List α → List (List α)
  | []        => kept
  | a :: path =>
    if (path = [] ∨ path ∈ kept) ∧ a ∉ ends kept then kept ++ [a :: path] else kept

-- The walks along which the depth-first order meets nodes for the first time.
def firsts (next : α → List α) (n : Nat) (roots : List α) : List (List α) :=
  (roots.flatMap (walks next n [])).foldl keep []

omit [DecidableEq α] in
theorem mem_ends : a ∈ ends kept ↔ ∃ path, a :: path ∈ kept := by
  simp [ends, List.head?_eq_some_iff]

omit [DecidableEq α] in
theorem ends_append_singleton : ends (kept ++ [a :: path]) = ends kept ++ [a] := by
  simp [ends]

omit [DecidableEq α] in
theorem suffix_of_mem_walks (h : w ∈ walks next n path a) : a :: path <:+ w := by
  induction n generalizing path a
  case zero => cases h
  case succ n ih =>
    obtain rfl | h := List.mem_cons.mp h
    case inl => exact List.suffix_rfl
    case inr =>
      have ⟨b, _, hw⟩ := List.mem_flatMap.mp h
      exact (List.suffix_cons _ _).trans (ih hw)

-- Below a walk that was passed over, all are.
theorem foldl_keep_walks (hn : ∀ w ∈ kept, ¬path <:+ w) (hp : path ≠ []) :
    (l.flatMap (walks next n path)).foldl keep kept = kept := by
  have hskip : ∀ ws : List (List α), (∀ w ∈ ws, ∃ b, b :: path <:+ w) → ws.foldl keep kept = kept := by
    intro ws
    induction ws
    case nil => exact fun _ => rfl
    case cons w ws ih =>
      intro hws
      have ⟨b, v, hw⟩ := hws w (.head _)
      have hkeep : keep kept w = kept := by
        cases v
        case nil =>
          subst hw
          exact if_neg fun h => h.left.elim hp (hn _ · List.suffix_rfl)
        case cons c v =>
          subst hw
          refine if_neg fun h => ?_
          obtain h | h := h.left
          · simp at h
          · exact hn _ h ⟨v ++ [b], by simp⟩
      rw [List.foldl_cons, hkeep]
      exact ih fun w hw => hws w (.tail _ hw)
  refine hskip _ fun w hw => ?_
  have ⟨b, _, hw⟩ := List.mem_flatMap.mp hw
  exact ⟨b, suffix_of_mem_walks hw⟩

-- What the walks below a path add to the ones kept before.
structure Adds (next : α → List α) (n : Nat) (l path : List α) (kept kept' : List (List α)) :
    Prop where
  ends     : ends kept' = l.foldl (visit next n) (ends kept)
  mono     : ∀ w ∈ kept, w ∈ kept'
  branch   : ∀ w ∈ kept', w ∈ kept ∨ ∃ a ∈ l, a :: path <:+ w
  parent   : ∀ a p, a :: p ∈ kept' → a :: p ∈ kept ∨
    p = path ∧ a ∈ l ∨ ∃ b q, p = b :: q ∧ p ∈ kept' ∧ a ∈ next b
  length   : ∀ w ∈ kept', w ∈ kept ∨ w.length ≤ path.length + n
  expanded : ∀ a p, a :: p ∈ kept' → a :: p ∈ kept ∨
    ((a :: p).length < path.length + n → ∀ b ∈ next a, b ∈ DepthFirst.ends kept')

theorem Adds.nil : Adds next n [] path kept kept where
  ends         := rfl
  mono _       := id
  branch _     := .inl
  parent _ _   := .inl
  length _     := .inl
  expanded _ _ := .inl

theorem Adds.trans {kept' kept'' : List (List α)} (h : Adds next n [a] path kept kept')
    (h' : Adds next n l path kept' kept'') : Adds next n (a :: l) path kept kept'' where
  ends := by rw [h'.ends, h.ends]; rfl
  mono w hw := h'.mono w (h.mono w hw)
  branch w hw := by
    obtain hw | ⟨b, hb, hs⟩ := h'.branch w hw
    · obtain hw | ⟨b, hb, hs⟩ := h.branch w hw
      · exact .inl hw
      · exact .inr ⟨b, by simp [List.mem_singleton.mp hb], hs⟩
    · exact .inr ⟨b, .tail _ hb, hs⟩
  parent b p hw := by
    obtain hw | ⟨hp, hb⟩ | hw := h'.parent b p hw
    · obtain hw | ⟨hp, hb⟩ | ⟨c, q, hp, hk, hn⟩ := h.parent b p hw
      · exact .inl hw
      · exact .inr (.inl ⟨hp, by simp [List.mem_singleton.mp hb]⟩)
      · exact .inr (.inr ⟨c, q, hp, h'.mono _ hk, hn⟩)
    · exact .inr (.inl ⟨hp, .tail _ hb⟩)
    · exact .inr (.inr hw)
  length w hw := by
    obtain hw | hw := h'.length w hw
    · exact h.length w hw
    · exact .inr hw
  expanded b p hw := by
    have hsub : ∀ c ∈ DepthFirst.ends kept', c ∈ DepthFirst.ends kept'' := fun c hc =>
      h'.ends ▸ prefix_foldl_visit.subset hc
    obtain hw | hw := h'.expanded b p hw
    · exact (h.expanded b p hw).imp_right fun hx hl c hc => hsub c (hx hl c hc)
    · exact .inr hw

-- A node that has been met already.
theorem Adds.skip (h : a ∈ DepthFirst.ends kept) : Adds next n [a] path kept kept :=
  { Adds.nil with
    ends   := (visit_of_mem h).symm
    branch := fun _ => .inl
    parent := fun _ _ => .inl }

-- The walk to a new node, and the walks below it.
theorem Adds.cons {kept' : List (List α)} (ha : a ∉ DepthFirst.ends kept)
    (h : Adds next n (next a) (a :: path) (kept ++ [a :: path]) kept') :
    Adds next (n + 1) [a] path kept kept' where
  ends := by
    rw [h.ends, ends_append_singleton]
    exact (if_neg ha).symm
  mono w hw := h.mono w (List.mem_append_left _ hw)
  branch w hw := by
    obtain hw | ⟨b, _, hs⟩ := h.branch w hw
    · refine (List.mem_append.mp hw).imp_right fun hw => ⟨a, by simp, ?_⟩
      exact List.mem_singleton.mp hw ▸ List.suffix_rfl
    · exact .inr ⟨a, by simp, (List.suffix_cons _ _).trans hs⟩
  parent b p hw := by
    have hk : a :: path ∈ kept' := h.mono _ (by simp)
    obtain hw | ⟨hp, hb⟩ | hw := h.parent b p hw
    · refine (List.mem_append.mp hw).imp_right fun hw => .inl ?_
      simpa [and_comm] using List.mem_singleton.mp hw
    · exact .inr (.inr ⟨a, path, hp, hp ▸ hk, hb⟩)
    · exact .inr (.inr hw)
  length w hw := by
    obtain hw | hw := h.length w hw
    · refine (List.mem_append.mp hw).imp_right fun hw => ?_
      simp [List.mem_singleton.mp hw]
    · exact .inr (by simpa [Nat.add_right_comm, Nat.add_assoc] using hw)
  expanded b p hw := by
    obtain hw | hw := h.expanded b p hw
    · refine (List.mem_append.mp hw).imp_right fun hw hl c hc => ?_
      obtain ⟨rfl, rfl⟩ := List.cons.inj (List.mem_singleton.mp hw)
      cases n
      case zero => simp at hl
      case succ => exact h.ends ▸ mem_foldl_visit hc
    · refine .inr fun hl => hw ?_
      simp only [List.length_cons] at hl ⊢
      omega

theorem adds_foldl_walks (hnext : ∀ a, (next a).Nodup) (hl : l.Nodup) (hp : path = [] ∨ path ∈ kept)
    (hn : ∀ a ∈ l, ∀ w ∈ kept, ¬a :: path <:+ w) :
    Adds next n l path kept ((l.flatMap (walks next n path)).foldl keep kept) := by
  induction n generalizing l path kept
  case zero =>
    have hnil : l.flatMap (walks next 0 path) = [] := by simp [walks]
    have hvisit : l.foldl (visit next 0) (ends kept) = ends kept := by
      induction l
      case nil       => rfl
      case cons l ih => exact ih hl.of_cons (fun a ha => hn a (.tail _ ha)) (by simp [walks])
    rw [hnil]
    exact { Adds.nil with ends := hvisit.symm, branch := fun _ => .inl, parent := fun _ _ => .inl }
  case succ n ih =>
    induction l generalizing kept
    case nil => exact .nil
    case cons a l ihl =>
      have ⟨hal, hl⟩ := List.nodup_cons.mp hl
      rw [List.flatMap_cons, List.foldl_append]
      have hone : Adds next (n + 1) [a] path kept ((walks next (n + 1) path a).foldl keep kept) := by
        unfold walks
        rw [List.foldl_cons]
        by_cases ha : a ∈ ends kept
        case pos =>
          have hkeep : keep kept (a :: path) = kept := if_neg fun h => h.right ha
          rw [hkeep, foldl_keep_walks (hn a (.head _)) (List.cons_ne_nil _ _)]
          exact .skip ha
        case neg =>
          have hkeep : keep kept (a :: path) = kept ++ [a :: path] := if_pos ⟨hp, ha⟩
          rw [hkeep]
          refine .cons ha (ih (hnext a) (.inr (by simp)) fun b _ w hw hs => ?_)
          obtain hw | hw := List.mem_append.mp hw
          · exact hn a (.head _) w hw ((List.suffix_cons _ _).trans hs)
          · have := (List.mem_singleton.mp hw ▸ hs).length_le
            simp at this
      refine hone.trans (ihl hl (hp.imp_right (hone.mono _)) fun b hb w hw hs => ?_)
      obtain hw | ⟨c, hc, hs'⟩ := hone.branch w hw
      · exact hn b (.tail _ hb) w hw hs
      · obtain rfl := List.mem_singleton.mp hc
        have he := (List.suffix_of_suffix_length_le hs hs' (by simp)).eq_of_length (by simp)
        exact hal ((List.cons.inj he).left ▸ hb)

-- A node is met after `k` hops.
def Meets (next : α → List α) (n : Nat) (roots : List α) (k : Nat) (a : α) : Prop :=
  ∃ path, a :: path ∈ firsts next n roots ∧ path.length = k

section

variable {roots : List α} {k : Nat}

theorem adds_firsts (hnext : ∀ a, (next a).Nodup) (hr : roots.Nodup) :
    Adds next n roots [] [] (firsts next n roots) :=
  adds_foldl_walks hnext hr (.inl rfl) fun _ _ _ h => by cases h

theorem mem_visits_iff_meets (hnext : ∀ a, (next a).Nodup) (hr : roots.Nodup) :
    a ∈ roots.foldl (visit next n) [] ↔ ∃ k, Meets next n roots k a := by
  have h := (adds_firsts (n := n) hnext hr).ends
  rw [show ends ([] : List (List α)) = [] from rfl] at h
  rw [←h, mem_ends]
  exact ⟨fun ⟨path, hp⟩ => ⟨path.length, path, hp, rfl⟩, fun ⟨_, path, hp, _⟩ => ⟨path, hp⟩⟩

theorem Meets.lt (hnext : ∀ a, (next a).Nodup) (hr : roots.Nodup) (h : Meets next n roots k a) :
    k < n := by
  have ⟨path, hp, hk⟩ := h
  obtain hm | hl := (adds_firsts hnext hr).length _ hp
  · cases hm
  · simp only [List.length_cons, List.length_nil] at hl
    omega

-- A node that is met is a root, or it comes next after a node that is met one hop before.
theorem Meets.cases (hnext : ∀ a, (next a).Nodup) (hr : roots.Nodup) (h : Meets next n roots k a) :
    k = 0 ∧ a ∈ roots ∨ ∃ j b, k = j + 1 ∧ Meets next n roots j b ∧ a ∈ next b := by
  have ⟨path, hp, hk⟩ := h
  obtain hm | ⟨rfl, ha⟩ | ⟨b, q, rfl, hq, ha⟩ := (adds_firsts hnext hr).parent a path hp
  · cases hm
  · exact .inl ⟨hk.symm, ha⟩
  · exact .inr ⟨q.length, b, hk.symm, ⟨q, hq, rfl⟩, ha⟩

-- What comes next after a node that is not met at the last level is met.
theorem Meets.expand (hnext : ∀ a, (next a).Nodup) (hr : roots.Nodup) (h : Meets next n roots k a)
    (hk : k + 1 < n) (hb : b ∈ next a) : ∃ j, Meets next n roots j b := by
  have ⟨path, hp, hl⟩ := h
  obtain hm | hx := (adds_firsts hnext hr).expanded a path hp
  · cases hm
  · have hx := hx (by simpa [hl] using hk) b hb
    have ⟨path, hp⟩ := mem_ends.mp hx
    exact ⟨path.length, path, hp, rfl⟩

end

end DepthFirst
