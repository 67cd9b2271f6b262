import Mathlib

-- String operations that only look at the list of characters of a string.

theorem List.not_mem_of_mem_splitOn {α : Type*} [BEq α] [LawfulBEq α] {a : α} {xs l : List α}
    (h : l ∈ xs.splitOn a) : a ∉ l := by
  induction xs generalizing l
  case nil =>
    rw [List.splitOn_nil, List.mem_singleton] at h
    rw [h]
    exact List.not_mem_nil
  case cons x xs ih =>
    rw [List.splitOn_cons_eq_if_modifyHead] at h
    split at h
    case isTrue =>
      obtain rfl | h := List.mem_cons.mp h
      · exact List.not_mem_nil
      · exact ih h
    case isFalse hx =>
      cases hs : xs.splitOn a
      case nil          => exact (List.splitOn_ne_nil a xs hs).elim
      case cons l' ls =>
        rw [hs, List.modifyHead_cons] at h
        obtain rfl | h := List.mem_cons.mp h
        · have hl := ih (hs ▸ List.mem_cons_self)
          rw [List.mem_cons]
          rintro (rfl | ha)
          · exact hx BEq.rfl
          · exact hl ha
        · exact ih (hs ▸ List.mem_cons_of_mem l' h)

namespace String

variable {s s' p q : String} {n : Nat}

-- `starts_with(s, p)`
def hasPrefix (s p : String) : Bool :=
  p.toList.isPrefixOf s.toList

def hasSuffix (s p : String) : Bool :=
  p.toList.isSuffixOf s.toList

-- `p in s`
def hasInfix (s p : String) : Bool :=
  s.toList.tails.any p.toList.isPrefixOf

def joinWith (sep : String) : List String → String
  | []      => ""
  | [s]     => s
  | s :: ss => s ++ sep ++ joinWith sep ss

-- `substring(s, n)` with a 1-based position `n`
def substringFrom (s : String) (n : Nat) : String :=
  ofList (s.toList.drop (n - 1))

theorem hasPrefix_iff : s.hasPrefix p ↔ ∃ q, s = p ++ q := by
  simp only [hasPrefix, List.isPrefixOf_iff_prefix]
  constructor
  case mp =>
    rintro ⟨l, h⟩
    exact ⟨ofList l, by rw [←toList_inj, toList_append, toList_ofList, h]⟩
  case mpr =>
    rintro ⟨q, rfl⟩
    simp

@[simp]
theorem hasPrefix_append : (p ++ q).hasPrefix p :=
  hasPrefix_iff.mpr ⟨q, rfl⟩

theorem append_left_cancel (h : p ++ s = p ++ s') : s = s' := by
  simpa [←toList_inj] using h

theorem append_assoc' : p ++ q ++ s = p ++ (q ++ s) := by
  simp [←toList_inj]

@[simp]
theorem substringFrom_append : (p ++ q).substringFrom (p.length + 1) = q := by
  simp [substringFrom, ←length_toList]

theorem joinWith_cons_cons {sep l l' : String} {ls : List String} :
    joinWith sep (l :: l' :: ls) = l ++ sep ++ joinWith sep (l' :: ls) :=
  rfl

theorem joinWith_append_singleton {sep : String} {ls : List String} (h : ls ≠ []) :
    joinWith sep (ls ++ [s]) = joinWith sep ls ++ sep ++ s := by
  induction ls
  case nil => contradiction
  case cons l ls ih =>
    cases ls
    case nil => rfl
    case cons l' ls =>
      have hj : joinWith sep (l :: l' :: ls ++ [s]) = l ++ sep ++ joinWith sep (l' :: ls ++ [s]) := rfl
      rw [hj, ih (List.cons_ne_nil _ _), joinWith_cons_cons]
      simp only [append_assoc']

theorem toList_joinWith {sep : String} {c : Char} (hs : sep.toList = [c]) {ls : List String} :
    (joinWith sep ls).toList = [c].intercalate (ls.map toList) := by
  induction ls
  case nil => rfl
  case cons l ls ih =>
    cases ls
    case nil         => simp [joinWith]
    case cons l' ls =>
      rw [joinWith_cons_cons, toList_append, toList_append, ih, hs, List.map_cons, List.map_cons, List.map_cons,
        List.intercalate_cons_cons]

-- Words without the separator can be read off the joined text.
theorem joinWith_inj {sep : String} {c : Char} (hs : sep.toList = [c]) {ls ls' : List String}
    (hn : ls ≠ []) (hn' : ls' ≠ []) (hc : ∀ l ∈ ls, c ∉ l.toList) (hc' : ∀ l ∈ ls', c ∉ l.toList)
    (h : joinWith sep ls = joinWith sep ls') : ls = ls' := by
  have split : ∀ {ls : List String}, ls ≠ [] → (∀ l ∈ ls, c ∉ l.toList) →
      (joinWith sep ls).toList.splitOn c = ls.map toList := by
    intro ls hn hc
    rw [toList_joinWith hs, List.splitOn_intercalate c (by simpa using hc) (by simpa using hn)]
  refine List.map_injective_iff.mpr (fun a b => toList_inj.mp) ?_
  rw [←split hn hc, ←split hn' hc', h]

-- Two strings that agree on a common beginning agree up to the shorter one.
theorem append_eq_append_or (h : p ++ s = q ++ s') : (∃ r, q = p ++ r) ∨ (∃ r, p = q ++ r) := by
  rw [←toList_inj, toList_append, toList_append] at h
  obtain ⟨l, hl, _⟩ | ⟨l, hl, _⟩ := List.append_eq_append_iff.mp h
  case inl => exact .inl ⟨ofList l, by rw [←toList_inj, toList_append, toList_ofList, hl]⟩
  case inr => exact .inr ⟨ofList l, by rw [←toList_inj, toList_append, toList_ofList, hl]⟩

-- The characters that `str.strip` removes.
def isBlank (c : Char) : Bool :=
  c.toNat ∈ [0x20, 0x85, 0xA0, 0x1680, 0x2028, 0x2029, 0x202F, 0x205F, 0x3000] ∨
    (0x09 ≤ c.toNat ∧ c.toNat ≤ 0x0D) ∨ (0x1C ≤ c.toNat ∧ c.toNat ≤ 0x1F) ∨
    (0x2000 ≤ c.toNat ∧ c.toNat ≤ 0x200A)

def strip (s : String) : String :=
  ofList ((s.toList.dropWhile isBlank).reverse.dropWhile isBlank).reverse

theorem strip_of_not_blank (h : ∀ c ∈ s.toList, isBlank c = false) : s.strip = s := by
  have hd : ∀ l : List Char, (∀ c ∈ l, isBlank c = false) → l.dropWhile isBlank = l := by
    intro l hl
    cases l
    case nil => rfl
    case cons c l => simp [hl c (.head _)]
  rw [strip, hd _ h, hd _ (by simpa using h), List.reverse_reverse, ofList_toList]

theorem strip_strip : s.strip.strip = s.strip := by
  have hs : s.strip = ofList ((s.toList.dropWhile isBlank).rdropWhile isBlank) := rfl
  -- What is left begins as the string does after its first blanks.
  have hd : ((s.toList.dropWhile isBlank).rdropWhile isBlank).dropWhile isBlank =
      (s.toList.dropWhile isBlank).rdropWhile isBlank := by
    obtain ⟨t, ht⟩ := List.rdropWhile_prefix (p := isBlank) (l := s.toList.dropWhile isBlank)
    cases hl : (s.toList.dropWhile isBlank).rdropWhile isBlank
    case nil      => rfl
    case cons c l =>
      rw [hl] at ht
      have hi := List.dropWhile_idempotent (p := isBlank) s.toList
      rw [←ht] at hi
      refine List.dropWhile_cons_of_neg fun hc => ?_
      rw [List.cons_append, List.dropWhile_cons_of_pos hc] at hi
      have hlen := congrArg List.length hi
      have hle := (List.dropWhile_sublist (p := isBlank) (l := l ++ t)).length_le
      simp only [List.length_cons] at hlen
      omega
  have hr := List.rdropWhile_idempotent (p := isBlank) (s.toList.dropWhile isBlank)
  rw [hs, strip, toList_ofList, hd]
  exact congrArg ofList hr

def isLineBreak (c : Char) : Bool :=
  c.toNat ∈ [0x0A, 0x0B, 0x0C, 0x0D, 0x1C, 0x1D, 0x1E, 0x85, 0x2028, 0x2029]

-- `str.splitlines`, up to empty lines.
def splitLines (s : String) : List String :=
  (s.toList.splitOnP isLineBreak).map ofList

end String

namespace Nat

variable {n m : Nat}

theorem toList_toString : (toString n).toList = Nat.toDigits 10 n := by
  rw [Nat.toString_eq_ofList_toDigits, String.toList_ofList]

theorem isDigit_toString : ∀ c ∈ (toString n).toList, c.isDigit := by
  rw [toList_toString]
  exact fun c hc => Nat.isDigit_of_mem_toDigits (by decide) (by decide) hc

theorem toString_inj (h : toString n = toString m) : n = m := by
  have hd := congrArg (fun s => Nat.ofDigitChars 10 s.toList 0) h
  simpa only [toList_toString, Nat.ofDigitChars_ten_toDigits] using hd

end Nat
