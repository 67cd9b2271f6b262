import CodeRag.Lib.DepthFirst

-- A depth-first traversal with a limit meets a node on the first of the paths to it, unless a node on
-- the way has been met at the last level.

universe u

namespace DepthFirst

variable {α : Type u} [DecidableEq α] {next : α → List α} {n m : Nat} {roots l : List α}
variable {a b : α} {path p w v : List α} {ws vs us before after rest : List (List α)}
variable {kept : List (List α)}

-- The walks of at most `n` nodes from the roots on, in depth-first order.
def allWalks (next : α → List α) (n : Nat) (roots : List α) : List (List α) :=
  roots.flatMap (walks next n [])

-- The first path to a node, in depth-first order. A path visits no node twice.
def firstPath? (next : α → List α) (n : Nat) (roots : List α) (a : α) : Option (List α) :=
  (allWalks next n roots).find? fun w => decide w.Nodup && (w.head? == some a)

-- A node from which the traversal has to go on: there is a next one, and the levels suffice for it.
def Leads (next : α → List α) (n : Nat) (roots : List α) (a : α) : Prop :=
  next a ≠ [] ∧ ∃ k, k + 1 < n ∧ Reaches (fun a b => b ∈ next a) (· ∈ roots) k a

section Order

omit [DecidableEq α] in
-- Splits a list that is put together of two at one of its elements.
theorem append_eq_append_cons_iff :
    us ++ vs = before ++ w :: rest ↔
      (∃ after, us = before ++ w :: after ∧ rest = after ++ vs) ∨
      ∃ before', before = us ++ before' ∧ vs = before' ++ w :: rest := by
  rw [List.append_eq_append_iff]
  constructor
  case mp =>
    rintro (⟨as, hb, hv⟩ | ⟨cs, hu, hr⟩)
    · exact .inr ⟨as, hb, hv⟩
    · cases cs
      case nil         => exact .inr ⟨[], by simpa using hu.symm, by simpa using hr.symm⟩
      case cons c cs   =>
        obtain ⟨rfl, rfl⟩ := List.cons.inj hr
        exact .inl ⟨cs, hu, rfl⟩
  case mpr =>
    rintro (⟨after, hu, hr⟩ | ⟨before', hb, hv⟩)
    · exact .inr ⟨w :: after, hu, by simp [hr]⟩
    · exact .inl ⟨before', hb, hv⟩

omit [DecidableEq α] in
-- Before a walk comes the one that it extends, and after it come the ones that extend it.
theorem split_walks (h : l.flatMap (walks next n path) = before ++ w :: rest) :
    ∃ b p, w = b :: p ∧
      (p = path ∧ b ∈ l ∨ ∃ c q, p = c :: q ∧ p ∈ before ∧ b ∈ next c) ∧
      ∃ m, m + w.length = n + path.length ∧ (next b).flatMap (walks next m w) <+: rest := by
  induction n generalizing l path before w rest
  case zero =>
    have hnil : l.flatMap (walks next 0 path) = [] := by simp [walks]
    simp [hnil] at h
  case succ n ih =>
    induction l generalizing before w
    case nil => simp at h
    case cons a l ihl =>
      rw [List.flatMap_cons] at h
      obtain ⟨after, hw, hrest⟩ | ⟨before', hbefore, hw⟩ := append_eq_append_cons_iff.mp h
      case inl =>
        rw [hrest]
        unfold walks at hw
        cases before
        case nil =>
          obtain ⟨rfl, rfl⟩ := List.cons.inj hw
          exact ⟨a, path, rfl, .inl ⟨rfl, .head _⟩, n, by simp [Nat.add_right_comm, Nat.add_assoc],
            List.prefix_append _ _⟩
        case cons v before =>
          obtain ⟨rfl, hbelow⟩ := List.cons.inj hw
          obtain ⟨b, p, rfl, hp, m, hm, hpre⟩ := ih hbelow
          refine ⟨b, p, rfl, .inr ?_, m, by simp at hm ⊢; omega, hpre.trans (List.prefix_append _ _)⟩
          obtain ⟨rfl, hb⟩ | ⟨c, q, hq, hmem, hb⟩ := hp
          · exact ⟨a, path, rfl, .head _, hb⟩
          · exact ⟨c, q, hq, .tail _ hmem, hb⟩
      case inr =>
        obtain ⟨b, p, rfl, hp, hm⟩ := ihl hw
        refine ⟨b, p, rfl, ?_, hm⟩
        obtain ⟨rfl, hb⟩ | ⟨c, q, hq, hmem, hb⟩ := hp
        · exact .inl ⟨rfl, .tail _ hb⟩
        · exact .inr ⟨c, q, hq, hbefore ▸ List.mem_append_right _ hmem, hb⟩

end Order

section Keep

-- The walk is not passed over.
def Keeps (kept : List (List α)) : List α → Prop
  | []        => False
  | a :: path => (path = [] ∨ path ∈ kept) ∧ a ∉ ends kept

theorem keep_cases (kept : List (List α)) (w : List α) :
    Keeps kept w ∧ keep kept w = kept ++ [w] ∨ ¬Keeps kept w ∧ keep kept w = kept := by
  cases w
  case nil         => exact .inr ⟨id, rfl⟩
  case cons a path =>
    by_cases h : Keeps kept (a :: path)
    case pos => exact .inl ⟨h, if_pos h⟩
    case neg => exact .inr ⟨h, if_neg h⟩

theorem keep_of_keeps (h : Keeps kept w) : w ∈ keep kept w := by
  obtain ⟨_, hk⟩ | ⟨hn, _⟩ := keep_cases kept w
  case inl => simp [hk]
  case inr => exact (hn h).elim

theorem subset_keep : kept ⊆ keep kept w := by
  obtain ⟨_, hk⟩ | ⟨_, hk⟩ := keep_cases kept w
  case inl => simp [hk]
  case inr => rw [hk]; exact fun _ => id

theorem subset_foldl_keep : kept ⊆ ws.foldl keep kept := by
  induction ws generalizing kept
  case nil          => exact fun _ => id
  case cons w ws ih => exact List.Subset.trans subset_keep ih

omit [DecidableEq α] in
theorem ends_subset (h : kept ⊆ ws) : ends kept ⊆ ends ws := by
  intro a ha
  have ⟨path, hp⟩ := mem_ends.mp ha
  exact mem_ends.mpr ⟨path, h hp⟩

-- A walk that is kept was not passed over when its turn came.
theorem keeps_of_mem (h : w ∈ ws.foldl keep []) :
    ∃ before rest, ws = before ++ w :: rest ∧ Keeps (before.foldl keep []) w := by
  induction ws using List.reverseRecOn
  case nil => cases h
  case append_singleton ws v ih =>
    have hold : w ∈ ws.foldl keep [] → ∃ before rest, ws ++ [v] = before ++ w :: rest ∧
        Keeps (before.foldl keep []) w := by
      intro h
      obtain ⟨before, rest, hw, hk⟩ := ih h
      exact ⟨before, rest ++ [v], by simp [hw], hk⟩
    rw [List.foldl_append, List.foldl_cons, List.foldl_nil] at h
    obtain ⟨hk, he⟩ | ⟨_, he⟩ := keep_cases (ws.foldl keep []) v
    case inr => exact hold (he ▸ h)
    case inl =>
      rw [he] at h
      obtain h | h := List.mem_append.mp h
      case inl => exact hold h
      case inr =>
        rw [List.mem_singleton.mp h]
        exact ⟨ws, [], rfl, hk⟩

theorem mem_of_mem_foldl_keep (h : w ∈ ws.foldl keep []) : w ∈ ws := by
  have ⟨before, rest, hw, _⟩ := keeps_of_mem h
  simp [hw]

-- After a walk that was kept, the node at which a longer one ends has been met.
theorem mem_ends_of_below (hp : p ∈ kept) (ha : a :: p ∈ ws) : a ∈ ends (ws.foldl keep kept) := by
  induction ws generalizing kept
  case nil => cases ha
  case cons w ws ih =>
    cases ha
    case tail ha => exact ih (subset_keep hp) ha
    case head    =>
      rw [List.foldl_cons]
      refine ends_subset subset_foldl_keep ?_
      by_cases hm : a ∈ ends kept
      case pos => exact ends_subset subset_keep hm
      case neg => exact mem_ends.mpr ⟨p, keep_of_keeps ⟨.inr hp, hm⟩⟩

-- The walks that are kept are paths.
theorem nodup_of_mem_foldl (h : w ∈ ws.foldl keep []) :
    w.Nodup ∧ ∀ a ∈ w, a ∈ ends (ws.foldl keep []) := by
  induction hl : w.length generalizing w ws
  case zero => simp [List.eq_nil_of_length_eq_zero hl]
  case succ k ih =>
    obtain ⟨before, rest, rfl, hk⟩ := keeps_of_mem h
    cases w
    case nil => cases hk
    case cons a path =>
      have hsub : ends (before.foldl keep []) ⊆ ends ((before ++ (a :: path) :: rest).foldl keep []) := by
        rw [List.foldl_append]
        exact ends_subset subset_foldl_keep
      have hpath : path.Nodup ∧ ∀ b ∈ path, b ∈ ends (before.foldl keep []) := by
        obtain rfl | hp := hk.left
        · simp
        · exact ih hp (by simpa using hl)
      refine ⟨List.nodup_cons.mpr ⟨fun ha => hk.right (hpath.right a ha), hpath.left⟩, ?_⟩
      exact List.forall_mem_cons.mpr
        ⟨mem_ends.mpr ⟨path, h⟩, fun b hb => hsub (hpath.right b hb)⟩

end Keep

section Time

-- What comes next after a node that was met before the last level has been met when all walks on
-- from there are over.
theorem mem_ends_of_over (hsplit : allWalks next n roots = before ++ w :: rest)
    (hv : a :: p ∈ before.foldl keep []) (hn : (a :: p).length < n) (hw : ¬a :: p <:+ w)
    (hb : b ∈ next a) : b ∈ ends (before.foldl keep []) := by
  obtain ⟨early, late, rfl, hk⟩ := keeps_of_mem hv
  have hs : roots.flatMap (walks next n []) = early ++ (a :: p) :: (late ++ w :: rest) := by
    simpa [allWalks] using hsplit
  obtain ⟨_, _, hcons, _, m, hm, hpre⟩ := split_walks hs
  obtain ⟨rfl, rfl⟩ := List.cons.inj hcons
  simp only [List.length_nil, Nat.add_zero] at hm
  -- The walks on from there come before the other one.
  have hlate : (next a).flatMap (walks next m (a :: p)) <+: late := by
    obtain ⟨after, hafter⟩ := hpre
    obtain ⟨_, hu, _⟩ | ⟨before', hu, _⟩ := append_eq_append_cons_iff.mp hafter
    case inr => exact ⟨before', hu.symm⟩
    case inl =>
      have hmem : w ∈ (next a).flatMap (walks next m (a :: p)) := by rw [hu]; simp
      have ⟨c, _, hc⟩ := List.mem_flatMap.mp hmem
      exact (hw ((List.suffix_cons c _).trans (suffix_of_mem_walks hc))).elim
  have hmem : b :: a :: p ∈ late := by
    refine hlate.subset (List.mem_flatMap.mpr ⟨b, hb, ?_⟩)
    obtain ⟨m, rfl⟩ : ∃ k, m = k + 1 := ⟨m - 1, by omega⟩
    exact List.mem_cons_self
  rw [List.foldl_append, List.foldl_cons]
  exact mem_ends_of_below (keep_of_keeps hk) hmem

-- No node that leads on is met at the last level by these walks.
def OnTime (next : α → List α) (n : Nat) (roots : List α) (kept : List (List α)) : Prop :=
  ∀ a p, Leads next n roots a → a :: p ∈ kept → (a :: p).length < n

omit [DecidableEq α] in
theorem cases_of_mem (h : a :: p ∈ allWalks next n roots) : p.length < n ∧
    (p = [] ∧ a ∈ roots ∨ ∃ b q, p = b :: q ∧ p ∈ allWalks next n roots ∧ a ∈ next b) := by
  obtain ⟨before, rest, hs⟩ := List.append_of_mem h
  obtain ⟨_, _, hcons, hp, m, hm, _⟩ := split_walks hs
  obtain ⟨rfl, rfl⟩ := List.cons.inj hcons
  simp only [List.length_cons, List.length_nil] at hm
  refine ⟨by omega, hp.imp_right ?_⟩
  rintro ⟨b, q, hq, hmem, ha⟩
  exact ⟨b, q, hq, hs ▸ List.mem_append_left _ hmem, ha⟩

omit [DecidableEq α] in
theorem reaches_of_mem (h : a :: p ∈ allWalks next n roots) :
    Reaches (fun a b => b ∈ next a) (· ∈ roots) p.length a := by
  induction p generalizing a
  case nil =>
    obtain ⟨_, ⟨_, ha⟩ | ⟨_, _, hc, _⟩⟩ := cases_of_mem h
    case inl => exact .root ha
    case inr => cases hc
  case cons b p ih =>
    obtain ⟨_, ⟨hc, _⟩ | ⟨_, _, hc, hp, ha⟩⟩ := cases_of_mem h
    case inl => cases hc
    case inr =>
      cases hc
      exact .hop (ih hp) ha

omit [DecidableEq α] in
-- The walks that a walk extends come before it.
theorem mem_before_of_suffix (h : allWalks next n roots = before ++ w :: rest) (hv : v <:+ w)
    (hne : v ≠ []) (hvw : v ≠ w) : v ∈ before := by
  induction w generalizing before rest
  case nil => exact (hne (List.suffix_nil.mp hv)).elim
  case cons a p ih =>
    obtain ⟨_, _, hcons, hp, _⟩ := split_walks h
    obtain ⟨rfl, rfl⟩ := List.cons.inj hcons
    have hvp : v <:+ p := (List.suffix_cons_iff.mp hv).resolve_left hvw
    obtain ⟨rfl, _⟩ | ⟨_, _, _, hp, _⟩ := hp
    case inl => exact (hne (List.suffix_nil.mp hvp)).elim
    case inr =>
      by_cases he : v = p
      case pos => exact he ▸ hp
      case neg =>
        obtain ⟨first, between, rfl⟩ := List.append_of_mem hp
        exact List.mem_append_left _ (ih (by simpa using h) hvp he)

-- From a node on a path that was met before its turn, the nodes that follow have been met as well when
-- those on the way are met on time.
theorem mem_ends_of_onTime (h : w ∈ allWalks next n roots) (hn : w.Nodup)
    (hsplit : allWalks next n roots = before ++ (b :: p) :: rest) (hnot : b :: p ∉ before)
    (hk : OnTime next n roots (before.foldl keep [])) (hb : b ∈ ends (before.foldl keep []))
    (hw : b :: p <:+ w) : ∃ a q, w = a :: q ∧ a ∈ ends (before.foldl keep []) := by
  induction w
  case nil => cases List.suffix_nil.mp hw
  case cons a t ih =>
    by_cases he : b :: p = a :: t
    case pos => exact ⟨a, t, rfl, (List.cons.inj he).left ▸ hb⟩
    case neg =>
      have ht : b :: p <:+ t := (List.suffix_cons_iff.mp hw).resolve_left he
      obtain ⟨hlt, ⟨rfl, _⟩ | ⟨c, q, rfl, hmem, hnext⟩⟩ := cases_of_mem h
      case inl => cases List.suffix_nil.mp ht
      have hnd : (c :: q).Nodup := hn.of_cons
      obtain ⟨_, _, hc, hin⟩ := ih hmem hnd ht
      obtain ⟨rfl, rfl⟩ := List.cons.inj hc
      have ⟨r, hr⟩ := mem_ends.mp hin
      have hleads : Leads next n roots c :=
        ⟨List.ne_nil_of_mem hnext, _, by simpa using hlt, reaches_of_mem hmem⟩
      refine ⟨a, c :: q, rfl, mem_ends_of_over hsplit hr (hk c r hleads hr) (fun hs => hnot ?_) hnext⟩
      -- The walk to the node would be the one whose turn it is.
      have heq : c :: r = c :: q := by
        refine (List.suffix_cons_iff.mp (hs.trans ht)).resolve_right fun hrq => ?_
        exact (List.nodup_cons.mp hnd).left (hrq.subset (.head _))
      have hbp : b :: p = c :: r := ht.eq_of_length_le (heq ▸ hs).length_le |>.trans heq.symm
      exact hbp ▸ mem_of_mem_foldl_keep hr

omit [DecidableEq α] in
theorem OnTime.mono {kept' : List (List α)} (h : OnTime next n roots kept') (hs : kept ⊆ kept') :
    OnTime next n roots kept :=
  fun a p ha hp => h a p ha (hs hp)

theorem foldl_keep_subset_append :
    before.foldl keep [] ⊆ (before ++ rest).foldl keep [] := by
  rw [List.foldl_append]
  exact subset_foldl_keep

-- The first path to a node is kept when the nodes on the way are met on time, and so is the way to it.
theorem keep_of_first (h : allWalks next n roots = before ++ (a :: path) :: rest)
    (hn : (a :: path).Nodup) (hfirst : ∀ p, a :: p ∈ before → ¬(a :: p).Nodup)
    (hk : OnTime next n roots (before.foldl keep [])) :
    a :: path ∈ keep (before.foldl keep []) (a :: path) := by
  have hmem : a :: path ∈ allWalks next n roots := by rw [h]; simp
  have ha : a ∉ ends (before.foldl keep []) := by
    intro ha
    have ⟨p, hp⟩ := mem_ends.mp ha
    exact hfirst p (mem_of_mem_foldl_keep hp) (nodup_of_mem_foldl hp).left
  have hway : ∀ v, v <:+ path → v ≠ [] → ∀ early late, before = early ++ v :: late → v ∉ early →
      v ∈ keep (early.foldl keep []) v := by
    intro v
    induction v
    case nil => exact fun _ hne => (hne rfl).elim
    case cons b p ih =>
      rintro hv _ early late rfl hnot
      have hsplit : allWalks next n roots = early ++ (b :: p) :: (late ++ (a :: path) :: rest) := by
        simp [h]
      refine keep_of_keeps ⟨?_, fun hb => ?_⟩
      · by_cases hp : p = []
        case pos => exact .inl hp
        case neg =>
          have hpm : p ∈ early := mem_before_of_suffix hsplit (List.suffix_cons _ _) hp (by simp)
          obtain ⟨first, between, rfl, hnot'⟩ := List.eq_append_cons_of_mem hpm
          have hin := ih ((List.suffix_cons _ _).trans hv) hp first (between ++ (b :: p) :: late)
            (by simp) hnot'
          rw [List.foldl_append, List.foldl_cons]
          exact .inr (subset_foldl_keep hin)
      · obtain ⟨_, _, hc, hin⟩ := mem_ends_of_onTime hmem hn hsplit hnot
          (hk.mono foldl_keep_subset_append) hb (hv.trans (List.suffix_cons _ _))
        obtain ⟨rfl, _⟩ := List.cons.inj hc
        exact ha (ends_subset foldl_keep_subset_append hin)
  refine keep_of_keeps ⟨?_, ha⟩
  by_cases hp : path = []
  case pos => exact .inl hp
  case neg =>
    have hpm : path ∈ before := mem_before_of_suffix h (List.suffix_cons _ _) hp (by simp)
    obtain ⟨early, late, rfl, hnot⟩ := List.eq_append_cons_of_mem hpm
    have hin := hway path List.suffix_rfl hp early late rfl hnot
    rw [List.foldl_append, List.foldl_cons]
    exact .inr (subset_foldl_keep hin)

end Time

-- The first path to each node that leads on is shorter than the limit.
def Early (next : α → List α) (n : Nat) (roots : List α) : Prop :=
  ∀ a w, Leads next n roots a → firstPath? next n roots a = some w → w.length < n

theorem firstPath?_eq_some_iff : firstPath? next n roots a = some w ↔
    (w.Nodup ∧ w.head? = some a) ∧ ∃ before rest, allWalks next n roots = before ++ w :: rest ∧
      ∀ p, a :: p ∈ before → ¬(a :: p).Nodup := by
  rw [firstPath?, List.find?_eq_some_iff_append]
  refine and_congr (by simp) (exists_congr fun before => exists_congr fun rest =>
    and_congr_right fun _ => ?_)
  constructor
  case mp =>
    intro h p hp hn
    simpa [hn] using h _ hp
  case mpr =>
    intro h v hv
    cases v
    case nil      => simp
    case cons b p =>
      by_cases hb : b = a
      case pos => simp only [decide_eq_false (h p (hb ▸ hv)), hb, Bool.false_and, Bool.not_false]
      case neg => simp [hb]

theorem exists_firstPath? (h : a :: p ∈ allWalks next n roots) (hn : (a :: p).Nodup) :
    ∃ w, firstPath? next n roots a = some w := by
  refine Option.isSome_iff_exists.mp (List.find?_isSome.mpr ⟨_, h, ?_⟩)
  simpa using hn

-- The traversal meets every node that leads on before the last level iff the first paths to these
-- nodes are shorter than the limit.
theorem onTime_iff : OnTime next n roots (firsts next n roots) ↔ Early next n roots := by
  constructor
  case mp =>
    intro h a w ha hw
    obtain ⟨⟨hn, hhead⟩, before, rest, hs, hfirst⟩ := firstPath?_eq_some_iff.mp hw
    obtain ⟨path, rfl⟩ := List.head?_eq_some_iff.mp hhead
    have hsub : keep (before.foldl keep []) (a :: path) ⊆ firsts next n roots := by
      unfold firsts
      rw [show roots.flatMap (walks next n []) = before ++ (a :: path) :: rest from hs,
        List.foldl_append, List.foldl_cons]
      exact subset_foldl_keep
    have hk : OnTime next n roots (before.foldl keep []) := h.mono (List.Subset.trans subset_keep hsub)
    exact h a path ha (hsub (keep_of_first hs hn hfirst hk))
  case mpr =>
    intro h
    have hall : ∀ k before rest, allWalks next n roots = before ++ rest → before.length = k →
        OnTime next n roots (before.foldl keep []) := by
      intro k
      induction k using Nat.strong_induction_on
      case h k ih =>
        rintro before rest hs rfl a p ha hp
        have hn := (nodup_of_mem_foldl hp).left
        obtain ⟨early, late, rfl, hkeep⟩ := keeps_of_mem hp
        have hs : allWalks next n roots = early ++ (a :: p) :: (late ++ rest) := by simp [hs]
        obtain ⟨w, hw⟩ := exists_firstPath? (by rw [hs]; simp) hn
        have hlen := h a w ha hw
        obtain ⟨⟨hwn, hhead⟩, before, after, hsw, hfirst⟩ := firstPath?_eq_some_iff.mp hw
        obtain ⟨path, rfl⟩ := List.head?_eq_some_iff.mp hhead
        obtain ⟨between, rfl, _⟩ | ⟨between, rfl, hb⟩ :=
          append_eq_append_cons_iff.mp (hs.symm.trans hsw)
        case inl =>
          -- The first path would have been kept before.
          have hk := ih before.length (by simp) before _ hsw rfl
          have hin := keep_of_first hsw hwn hfirst hk
          have hsub : keep (before.foldl keep []) (a :: path) ⊆
              (before ++ (a :: path) :: between).foldl keep [] := by
            rw [List.foldl_append, List.foldl_cons]
            exact subset_foldl_keep
          exact (hkeep.right (mem_ends.mpr ⟨path, hsub hin⟩)).elim
        case inr =>
          cases between
          case nil =>
            obtain ⟨hw, _⟩ := List.cons.inj hb
            exact hw ▸ hlen
          case cons v between =>
            obtain ⟨rfl, _⟩ := List.cons.inj hb
            exact (hfirst p (by simp) hn).elim
    exact hall _ _ [] (List.append_nil _).symm rfl

end DepthFirst
