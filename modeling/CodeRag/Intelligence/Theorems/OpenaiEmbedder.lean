import CodeRag.Lib.Except
import CodeRag.Intelligence.OpenaiEmbedder

-- Which vector a text gets from a response.

namespace OpenAICompatEmbedder

variable {F : Type} {embedder : OpenAICompatEmbedder F} {dim : Option Nat} {texts : List String}
variable {items : List (EmbeddingItem F)} {raw rows : List (List F)}

def normalized (embedder : OpenAICompatEmbedder F) (item : EmbeddingItem F) : Except Exn (List F) :=
  (vectorFromItem item).map embedder.normalize

-- Each text gets the vector of the item that has its index.
def Matched (embedder : OpenAICompatEmbedder F) (items : List (EmbeddingItem F)) (count : Nat)
    (rows : List (List F)) : Prop :=
  rows.length = count ∧
    ∀ i row, rows[i]? = some row → ∃ item ∈ items, item.index = i ∧ embedder.normalized item = .ok row

-- A call raises an `IntelligenceError`, or each text gets its vector, in the bound width.
def Delivers (embedder : OpenAICompatEmbedder F) (dim : Option Nat) (texts : List String) : Prop :=
  (∃ msg, embedder.aembed dim texts = .error (.intelligence msg)) ∨
    ∃ items rows, embedder.service (embedder.request texts) = .ok items ∧
      embedder.aembed dim texts = .ok rows ∧ embedder.Matched items texts.length rows ∧
      ∀ n ∈ dim, ∀ row ∈ rows, row.length = n

-- What the checks of a response find.
def Refused (dim : Option Nat) (count : Nat) (items : List (EmbeddingItem F)) : Prop :=
  items.length ≠ count ∨ (∃ item ∈ items, item.embedding = none) ∨
    ∃ n ∈ dim, ∃ item ∈ items, ∃ vec, vectorFromItem item = .ok vec ∧ vec.length ≠ n

def Uniform (items : List (EmbeddingItem F)) : Prop :=
  ∃ n, ∀ item ∈ items, ∀ vec, vectorFromItem item = .ok vec → vec.length = n

-- The item at a position has the same vector, up to its length, as an item with this index.
def InOrder (embedder : OpenAICompatEmbedder F) (items : List (EmbeddingItem F)) : Prop :=
  ∀ i item, items[i]? = some item →
    ∃ item' ∈ items, item'.index = i ∧ embedder.normalized item' = embedder.normalized item

theorem inOrder_of_indices (h : items.map EmbeddingItem.index = List.range items.length) :
    embedder.InOrder items := by
  intro i item hi
  obtain ⟨hl, he⟩ := List.getElem?_eq_some_iff.mp hi
  refine ⟨item, List.mem_of_getElem? hi, ?_, rfl⟩
  have hx : (items.map EmbeddingItem.index)[i]? = some i := by
    rw [h, List.getElem?_range hl]
  rw [List.getElem?_map, hi] at hx
  exact Option.some.inj hx

theorem vectorFromItem_isOk {item : EmbeddingItem F} :
    (∃ vec, vectorFromItem item = .ok vec) ↔ item.embedding ≠ none := by
  unfold vectorFromItem
  split <;> simp_all

-- All vectors of the service have the width `n`.
def HasWidth (embedder : OpenAICompatEmbedder F) (n : Nat) : Prop :=
  ∀ texts items, embedder.service (embedder.request texts) = .ok items →
    ∀ item ∈ items, ∀ vec, vectorFromItem item = .ok vec → vec.length = n

section Parts

private theorem checkWidths_ok_iff :
    checkWidths dim raw = .ok () ↔ ∀ n ∈ dim, ∀ vec ∈ raw, vec.length = n := by
  unfold checkWidths
  split
  case h_1 => simp
  case h_2 n =>
    split
    case h_1 hf => simpa using hf
    case h_2 vec hf =>
      have hm := List.mem_of_find?_eq_some hf
      have hn : vec.length ≠ n := by simpa using List.find?_some hf
      exact ⟨nofun, fun h => (hn (h n rfl vec hm)).elim⟩

private theorem checkWidths_error {e : Exn} (h : checkWidths dim raw = .error e) :
    ∃ msg, e = .intelligence msg := by
  unfold checkWidths at h
  split at h <;> try cases h
  split at h <;> cases h
  exact ⟨_, rfl⟩

private theorem normalizeRows_ok_iff : embedder.normalizeRows raw = .ok rows ↔
    raw ≠ [] ∧ (∃ n, ∀ vec ∈ raw, vec.length = n) ∧ rows = raw.map embedder.normalize := by
  cases raw
  case nil => simp [normalizeRows]
  case cons row raw =>
    rw [normalizeRows]
    split
    case isTrue h =>
      have hn : ∃ n, ∀ vec ∈ row :: raw, vec.length = n :=
        ⟨row.length, List.forall_mem_cons.mpr ⟨rfl, h⟩⟩
      simp only [Except.ok.injEq, ne_eq, reduceCtorEq, not_false_eq_true, hn, true_and]
      exact eq_comm
    case isFalse h =>
      refine ⟨nofun, fun ⟨_, ⟨n, hn⟩, _⟩ => (h fun vec hvec => ?_).elim⟩
      rw [hn vec (.tail _ hvec), hn row (.head _)]

private theorem normalizeRows_error {e : Exn} (h : embedder.normalizeRows raw = .error e) :
    ∀ msg, e ≠ .intelligence msg := by
  unfold normalizeRows at h
  split at h
  case h_1 => cases h; nofun
  case h_2 => split at h <;> cases h; nofun

end Parts

variable {count : Nat}

private theorem length_of_map_eq (h : items.map vectorFromItem = raw.map .ok) :
    raw.length = items.length := by
  simpa using congrArg List.length h.symm

private theorem mem_of_map_eq (h : items.map vectorFromItem = raw.map .ok) {vec : List F} :
    vec ∈ raw ↔ ∃ item ∈ items, vectorFromItem item = .ok vec := by
  rw [←List.mem_map, h, List.mem_map_of_injective Except.ok_injective]

private theorem receive_of_vectors (hm : items.mapM vectorFromItem = .ok raw) :
    embedder.receive dim count items =
      if raw.length ≠ count then .error (.intelligence "Embedding count mismatch")
      else checkWidths dim raw >>= fun _ => embedder.normalizeRows raw := by
  unfold receive
  rw [hm]
  rfl

-- An embedder that is bound to the width of its service rejects no vector for its width.
theorem HasWidth.aembed_eq {n : Nat} (h : embedder.HasWidth n) (hd : ∀ d ∈ dim, d = n) :
    embedder.aembed dim texts = embedder.aembed none texts := by
  unfold aembed
  cases hs : embedder.service (embedder.request texts)
  case error => rfl
  case ok items =>
    show embedder.receive dim texts.length items = embedder.receive none texts.length items
    cases hm : items.mapM vectorFromItem
    case error => unfold receive; rw [hm]; rfl
    case ok raw =>
      have hmap := List.mapM_ok_iff.mp hm
      have hw : checkWidths dim raw = checkWidths none raw := by
        refine checkWidths_ok_iff.mpr fun d hdim vec hv => ?_
        obtain ⟨item, hi, hv⟩ := (mem_of_map_eq hmap).mp hv
        exact (h texts items hs item hi vec hv).trans (hd d hdim).symm
      rw [receive_of_vectors hm, receive_of_vectors hm, hw]

-- A response of the service is refused, or its vectors are handed on in the order of the items.
theorem receive_cases :
    (Refused dim count items ∧ ∃ msg, embedder.receive dim count items = .error (.intelligence msg)) ∨
      ¬Refused dim count items ∧ ∃ raw, items.map vectorFromItem = raw.map .ok ∧
        embedder.receive dim count items = embedder.normalizeRows raw := by
  have hemb : (∃ raw, items.mapM vectorFromItem = .ok raw) ↔ ¬∃ item ∈ items, item.embedding = none := by
    rw [List.exists_mapM_ok_iff]
    simp only [vectorFromItem_isOk, ne_eq, not_exists, not_and]
  cases hm : items.mapM vectorFromItem
  case error e =>
    refine .inl ⟨.inr (.inl ?_), ⟨_, by unfold receive; rw [hm]; rfl⟩⟩
    by_contra hn
    obtain ⟨raw, hraw⟩ := hemb.mpr hn
    rw [hm] at hraw
    cases hraw
  case ok raw =>
    have hmap := List.mapM_ok_iff.mp hm
    have hlen := length_of_map_eq hmap
    rw [receive_of_vectors hm]
    by_cases hc : raw.length = count
    case neg => exact .inl ⟨.inl (hlen ▸ hc), _, if_pos hc⟩
    rw [if_neg (not_not.mpr hc)]
    cases hx : checkWidths dim raw
    case error e =>
      obtain ⟨msg, rfl⟩ := checkWidths_error hx
      refine .inl ⟨.inr (.inr ?_), msg, rfl⟩
      by_contra hn
      simp only [not_exists, not_and, not_not] at hn
      have hw : checkWidths dim raw = .ok () := by
        refine checkWidths_ok_iff.mpr fun n hd vec hv => ?_
        obtain ⟨item, hi, hv⟩ := (mem_of_map_eq hmap).mp hv
        exact hn n hd item hi vec hv
      rw [hw] at hx
      cases hx
    case ok =>
      refine .inr ⟨?_, raw, hmap, rfl⟩
      rintro (h | h | ⟨n, hd, item, hi, vec, hv, hne⟩)
      · exact h (hlen.symm.trans hc)
      · exact hemb.mp ⟨raw, hm⟩ h
      · exact hne (checkWidths_ok_iff.mp hx n hd vec ((mem_of_map_eq hmap).mpr ⟨item, hi, hv⟩))

-- What a call returns are the vectors of the items.
theorem aembed_ok (h : embedder.aembed dim texts = .ok rows) : ∃ items, ∃ raw : List (List F),
    embedder.service (embedder.request texts) = .ok items ∧ items.map vectorFromItem = raw.map .ok ∧
      rows = raw.map embedder.normalize := by
  unfold aembed at h
  cases hs : embedder.service (embedder.request texts) <;> rw [hs] at h
  case error => cases h
  case ok items =>
    have h : embedder.receive dim texts.length items = .ok rows := h
    have hcases : (Refused dim texts.length items ∧ ∃ msg,
        embedder.receive dim texts.length items = .error (.intelligence msg)) ∨ _ := receive_cases
    obtain ⟨_, msg, he⟩ | ⟨_, raw, hmap, he⟩ := hcases <;> rw [he] at h
    case inl => cases h
    case inr => exact ⟨items, raw, rfl, hmap, (normalizeRows_ok_iff.mp h).right.right⟩

-- The vectors that are handed on are those of the texts iff the items are in the order of the texts.
theorem matched_iff (hmap : items.map vectorFromItem = raw.map .ok) :
    embedder.Matched items items.length (raw.map embedder.normalize) ↔ embedder.InOrder items := by
  have hlen := length_of_map_eq hmap
  have hnorm : ∀ (i : Nat) (item : EmbeddingItem F), items[i]? = some item →
      ∃ row, (raw.map embedder.normalize)[i]? = some row ∧ embedder.normalized item = .ok row := by
    intro i item hi
    have hx : (items.map vectorFromItem)[i]? = some (vectorFromItem item) := by
      rw [List.getElem?_map, hi, Option.map_some]
    rw [hmap, List.getElem?_map] at hx
    obtain ⟨vec, hv, hok⟩ := Option.map_eq_some_iff.mp hx
    exact ⟨embedder.normalize vec, by rw [List.getElem?_map, hv, Option.map_some],
      by rw [normalized, ←hok]; rfl⟩
  constructor
  case mp =>
    rintro ⟨_, hm⟩ i item hi
    obtain ⟨row, hr, hn⟩ := hnorm i item hi
    obtain ⟨item', hi', hx, hn'⟩ := hm i row hr
    exact ⟨item', hi', hx, hn'.trans hn.symm⟩
  case mpr =>
    refine fun ho => ⟨by rw [List.length_map, hlen], fun i row hr => ?_⟩
    have hl : i < items.length := by
      have hl := (List.getElem?_eq_some_iff.mp hr).choose
      rwa [List.length_map, hlen] at hl
    obtain ⟨row', hr', hn⟩ := hnorm i items[i] (List.getElem?_eq_getElem hl)
    obtain ⟨item', hi', hx, hn'⟩ := ho i items[i] (List.getElem?_eq_getElem hl)
    rw [hr] at hr'
    cases hr'
    exact ⟨item', hi', hx, hn'.trans hn⟩

-- A call delivers iff the request fails, the response is refused, or its vectors, at least one, have
-- one width and are in the order of the texts.
theorem delivers_iff : embedder.Delivers dim texts ↔
    ∀ items, embedder.service (embedder.request texts) = .ok items →
      Refused dim texts.length items ∨ (texts ≠ [] ∧ Uniform items ∧ embedder.InOrder items) := by
  unfold Delivers aembed
  cases hs : embedder.service (embedder.request texts)
  case error e => exact ⟨fun _ _ => nofun, fun _ => .inl ⟨_, rfl⟩⟩
  case ok items =>
    simp only [Except.ok.injEq, forall_eq']
    show ((∃ msg, embedder.receive dim texts.length items = .error (.intelligence msg)) ∨
      ∃ items' rows, items = items' ∧ embedder.receive dim texts.length items = .ok rows ∧ _) ↔ _
    have hcases : (Refused dim texts.length items ∧ ∃ msg,
        embedder.receive dim texts.length items = .error (.intelligence msg)) ∨ _ := receive_cases
    obtain ⟨hr, msg, he⟩ | ⟨hr, raw, hmap, he⟩ := hcases
    case inl => exact ⟨fun _ => .inl hr, fun _ => .inl ⟨msg, he⟩⟩
    rw [he]
    have hlen : items.length = texts.length := by
      by_contra hn
      exact hr (.inl hn)
    have hraw := length_of_map_eq hmap
    constructor
    case mp =>
      rintro (⟨msg, h⟩ | ⟨_, rows, rfl, h, hm, _⟩)
      case inl => exact (normalizeRows_error h msg rfl).elim
      obtain ⟨hne, ⟨n, hn⟩, rfl⟩ := normalizeRows_ok_iff.mp h
      refine .inr ⟨?_, ⟨n, fun item hi vec hv => ?_⟩, (matched_iff hmap).mp (hlen ▸ hm)⟩
      · rintro rfl
        exact hne (List.length_eq_zero_iff.mp (hraw.trans hlen))
      · exact hn vec ((mem_of_map_eq hmap).mpr ⟨item, hi, hv⟩)
    case mpr =>
      rintro (h | ⟨hne, ⟨n, hn⟩, ho⟩)
      case inl => exact (hr h).elim
      have hok : embedder.normalizeRows raw = .ok (raw.map embedder.normalize) := by
        refine normalizeRows_ok_iff.mpr ⟨?_, ⟨n, fun vec hv => ?_⟩, rfl⟩
        · rintro rfl
          exact hne (List.length_eq_zero_iff.mp (hlen.symm.trans hraw.symm))
        · obtain ⟨item, hi, hv⟩ := (mem_of_map_eq hmap).mp hv
          exact hn item hi vec hv
      refine .inr ⟨items, _, rfl, hok, hlen ▸ (matched_iff hmap).mpr ho, fun m hm row hrow => ?_⟩
      obtain ⟨vec, hv, rfl⟩ := List.mem_map.mp hrow
      rw [embedder.normalize_length]
      by_contra hw
      obtain ⟨item, hi, hv⟩ := (mem_of_map_eq hmap).mp hv
      exact hr (.inr (.inr ⟨m, hm, item, hi, vec, hv, hw⟩))

-- A service that lists the vectors of two texts, which have length one, in the opposite order.
def reversed : OpenAICompatEmbedder Int where
  apiBase            := "http://localhost"
  apiKey             := none
  provider           := none
  model              := "m"
  service _          := .ok [.dict 1 (some (.vector [0, 1])), .dict 0 (some (.vector [1, 0]))]
  normalize          := id
  normalize_length _ := rfl

theorem reversed_not_delivers :
    (∃ items, reversed.service (reversed.request ["a", "b"]) = .ok items ∧
      (items.map EmbeddingItem.index).Perm (List.range 2) ∧ ∀ item ∈ items, item.embedding ≠ none) ∧
    reversed.aembed none ["a", "b"] = .ok [[0, 1], [1, 0]] ∧ ¬reversed.Delivers none ["a", "b"] := by
  have hrun : reversed.aembed none ["a", "b"] = .ok [[0, 1], [1, 0]] := rfl
  refine ⟨⟨_, rfl, by decide, by decide⟩, hrun, ?_⟩
  rintro (⟨msg, h⟩ | ⟨items, rows, hs, h, ⟨_, hm⟩, _⟩)
  case inl => cases hrun.symm.trans h
  case inr =>
    cases hs
    cases hrun.symm.trans h
    obtain ⟨item, hi, hx, hn⟩ := hm 0 [0, 1] rfl
    simp only [List.mem_cons, List.not_mem_nil, or_false] at hi
    obtain rfl | rfl := hi
    case inl => cases hx
    case inr => cases hn

end OpenAICompatEmbedder
