import Mathlib

-- JSON documents, and the texts that Python's json module writes and reads for them.

-- The text that Python writes for a float, which stands for the float.
structure FloatLiteral where
  negative : Bool
  whole    : Nat
  fraction : List Char
  exponent : Option (Bool × List Char)
  wf       : fraction.all Char.isDigit ∧ (∀ e ∈ exponent, e.2 ≠ [] ∧ e.2.all Char.isDigit) ∧
    (fraction ≠ [] ∨ exponent.isSome)

-- The text of zero.
def FloatLiteral.zero : FloatLiteral :=
  ⟨false, 0, ['0'], none, by simp⟩

-- The values that a JSON document can hold.
inductive Json
  | null
  | bool (b : Bool)
  | num (n : Int)
  | float (l : FloatLiteral)
  | str (s : String)
  | arr (items : List Json)
  | obj (fields : List (String × Json))

namespace Json

section Write

def sign (negative : Bool) : List Char :=
  if negative then ['-'] else []

def writeInt (n : Int) : List Char :=
  sign (n < 0) ++ Nat.toDigits 10 n.natAbs

def writeExponent : Option (Bool × List Char) → List Char
  | none          => []
  | some (neg, l) => 'e' :: (if neg then '-' else '+') :: l

def writeFraction (l : List Char) : List Char :=
  if l = [] then [] else '.' :: l

def writeFloat (l : FloatLiteral) : List Char :=
  sign l.negative ++ Nat.toDigits 10 l.whole ++ writeFraction l.fraction ++ writeExponent l.exponent

-- Four hexadecimal digits.
def writeHex (n : Nat) : List Char :=
  [n / 4096 % 16, n / 256 % 16, n / 16 % 16, n % 16].map Nat.digitChar

-- The characters with an escape of their own, and how it is written after the backslash.
def escapes : List (Char × Char) :=
  [('\\', '\\'), ('"', '"'), ('\x08', 'b'), ('\x0c', 'f'), ('\n', 'n'), ('\r', 'r'), ('\t', 't')]

-- What a text in ASCII holds for a character; one above the basic plane becomes a surrogate pair.
def writeChar (c : Char) : List Char :=
  match escapes.lookup c with
  | some e => ['\\', e]
  | none   =>
    if ' ' ≤ c ∧ c ≤ '~' then
      [c]
    else if c.toNat < 0x10000 then
      '\\' :: 'u' :: writeHex c.toNat
    else
      '\\' :: 'u' :: writeHex (0xd800 + (c.toNat - 0x10000) / 1024) ++
        '\\' :: 'u' :: writeHex (0xdc00 + (c.toNat - 0x10000) % 1024)

def writeString (s : String) : List Char :=
  '"' :: s.toList.flatMap writeChar ++ ['"']

mutual

def write : Json → List Char
  | .null       => "null".toList
  | .bool true  => "true".toList
  | .bool false => "false".toList
  | .num n      => writeInt n
  | .float l    => writeFloat l
  | .str s      => writeString s
  | .arr items  => '[' :: ", ".toList.intercalate (writeItems items) ++ [']']
  | .obj fields => '{' :: ", ".toList.intercalate (writeFields fields) ++ ['}']

def writeItems : List Json → List (List Char)
  | []         => []
  | j :: items => j.write :: writeItems items

def writeFields : List (String × Json) → List (List Char)
  | []          => []
  | f :: fields => writeField f :: writeFields fields

def writeField : String × Json → List Char
  | (key, j) => writeString key ++ ": ".toList ++ j.write

end

-- `json.dumps(j)`
def dumps (j : Json) : String :=
  .ofList j.write

end Write

section Read

def isBlank (c : Char) : Bool :=
  c ∈ [' ', '\t', '\n', '\r']

def skipBlanks (l : List Char) : List Char :=
  l.dropWhile isBlank

def digits (l : List Char) : List Char :=
  l.takeWhile Char.isDigit

def afterDigits (l : List Char) : List Char :=
  l.dropWhile Char.isDigit

-- A minus sign is optional.
def readSign : List Char → Bool × List Char
  | '-' :: l => (true, l)
  | l        => (false, l)

-- (0|[1-9][0-9]*)
def readWhole : List Char → Option (Nat × List Char)
  | '0' :: l => some (0, l)
  | l        => if digits l = [] then none else some (Nat.ofDigitChars 10 (digits l) 0, afterDigits l)

-- (\.[0-9]+)?
def readFraction : List Char → List Char × List Char
  | '.' :: l => if digits l = [] then ([], '.' :: l) else (digits l, afterDigits l)
  | l        => ([], l)

def readExponentSign : List Char → Bool × List Char
  | '+' :: l => (false, l)
  | l        => readSign l

-- ([eE][-+]?[0-9]+)?
def readExponent : List Char → Option (Bool × List Char) × List Char
  | []     => (none, [])
  | c :: l =>
    let (neg, l') := readExponentSign l
    if (c = 'e' ∨ c = 'E') ∧ digits l' ≠ [] then
      (some (neg, digits l'), afterDigits l')
    else
      (none, c :: l)

-- The parts of a float, or an integer if there is only a whole part.
def ofParts (negative : Bool) (whole : Nat) (fraction : List Char)
    (exponent : Option (Bool × List Char)) : Json :=
  if h : fraction.all Char.isDigit ∧ (∀ e ∈ exponent, e.2 ≠ [] ∧ e.2.all Char.isDigit) ∧
      (fraction ≠ [] ∨ exponent.isSome) then
    .float ⟨negative, whole, fraction, exponent, h⟩
  else
    .num (if negative then -whole else whole)

def readNumber (l : List Char) : Option (Json × List Char) :=
  (readWhole (readSign l).2).map fun w =>
    let fraction := readFraction w.2
    let exponent := readExponent fraction.2
    (ofParts (readSign l).1 w.1 fraction.1 exponent.1, exponent.2)

def hexValue (c : Char) : Option Nat :=
  if c.isDigit then some (c.toNat - 48)
  else if 'a' ≤ c ∧ c ≤ 'f' then some (c.toNat - 87)
  else if 'A' ≤ c ∧ c ≤ 'F' then some (c.toNat - 55)
  else none

def readHex : List Char → Option (Nat × List Char)
  | a :: b :: c :: d :: l => do
    let a ← hexValue a
    let b ← hexValue b
    let c ← hexValue c
    let d ← hexValue d
    pure (a * 4096 + b * 256 + c * 16 + d, l)
  | _ => none

-- What follows `\u`. A surrogate without its partner is not a character.
def readUnicode (l : List Char) : Option (Char × List Char) := do
  let (u, l) ← readHex l
  if 0xd800 ≤ u ∧ u ≤ 0xdbff then
    match l with
    | '\\' :: 'u' :: l =>
      let (v, l) ← readHex l
      if 0xdc00 ≤ v ∧ v ≤ 0xdfff then
        pure (.ofNat (0x10000 + (u - 0xd800) * 1024 + (v - 0xdc00)), l)
      else
        none
    | _ => none
  else if 0xdc00 ≤ u ∧ u ≤ 0xdfff then
    none
  else
    pure (.ofNat u, l)

-- What follows a backslash.
def readEscape : List Char → Option (Char × List Char)
  | []     => none
  | c :: l =>
    if c = 'u' then readUnicode l
    else if c = '/' then some ('/', l)
    else (escapes.map Prod.swap).lookup c |>.map (·, l)

-- What follows the opening quote of a string, with a bound on the number of characters.
def readString : Nat → List Char → Option (List Char × List Char)
  | 0, _          => none
  | _ + 1, []     => none
  | n + 1, c :: l =>
    if c = '"' then some ([], l)
    else if c = '\\' then do
      let (c, l) ← readEscape l
      let (s, l) ← readString n l
      pure (c :: s, l)
    else if c < ' ' then none
    else do
      let (s, l) ← readString n l
      pure (c :: s, l)

section Containers

-- The rest of an array or an object is read with a bound on the number of its members.
variable (read : List Char → Option (Json × List Char))

def readItems : Nat → List Char → Option (List Json × List Char)
  | 0, _     => none
  | n + 1, l => do
    let (j, l) ← read l
    match skipBlanks l with
    | ']' :: l => pure ([j], l)
    | ',' :: l =>
      let (items, l) ← readItems n (skipBlanks l)
      pure (j :: items, l)
    | _        => none

def readArray (n : Nat) (l : List Char) : Option (Json × List Char) :=
  match skipBlanks l with
  | ']' :: l => some (.arr [], l)
  | l        => (readItems read n l).map fun r => (.arr r.1, r.2)

def readField (l : List Char) : Option ((String × Json) × List Char) := do
  let (key, l) ← readString l.length l
  match skipBlanks l with
  | ':' :: l =>
    let (j, l) ← read (skipBlanks l)
    pure ((.ofList key, j), l)
  | _        => none

def readFields : Nat → List Char → Option (List (String × Json) × List Char)
  | 0, _     => none
  | n + 1, l => do
    let (f, l) ← readField read l
    match skipBlanks l with
    | '}' :: l => pure ([f], l)
    | ',' :: l =>
      match skipBlanks l with
      | '"' :: l =>
        let (fields, l) ← readFields n l
        pure (f :: fields, l)
      | _        => none
    | _        => none

-- `d[key] = j`
def setField (d : List (String × Json)) (f : String × Json) : List (String × Json) :=
  if d.any (·.1 = f.1) then d.map fun g => if g.1 = f.1 then f else g else d ++ [f]

-- `dict(fields)`
def toDict (fields : List (String × Json)) : List (String × Json) :=
  fields.foldl setField []

def readObject (n : Nat) (l : List Char) : Option (Json × List Char) :=
  match skipBlanks l with
  | '}' :: l => some (.obj [], l)
  | '"' :: l => (readFields read n l).map fun r => (.obj (toDict r.1), r.2)
  | _        => none

end Containers

def readWord (word : String) (j : Json) (l : List Char) : Option (Json × List Char) :=
  if word.toList.isPrefixOf l then some (j, l.drop word.length) else none

-- A value at the front of a text, with a bound on its depth and on the members of its parts.
def read : Nat → List Char → Option (Json × List Char)
  | 0, _          => none
  | _ + 1, []     => none
  | n + 1, c :: l =>
    if c = '"' then (readString l.length l).map fun r => (.str (.ofList r.1), r.2)
    else if c = '{' then readObject (read n) n l
    else if c = '[' then readArray (read n) n l
    else if c = 'n' then readWord "null" .null (c :: l)
    else if c = 't' then readWord "true" (.bool true) (c :: l)
    else if c = 'f' then readWord "false" (.bool false) (c :: l)
    else readNumber (c :: l)

-- `json.loads(s)`
def loads (s : String) : Option Json := do
  let (j, l) ← read s.length (skipBlanks s.toList)
  if skipBlanks l = [] then pure j else none

end Read

section Numbers

variable {n : Nat} {b : Bool} {l rest : List Char}

-- No digit comes first.
def NoDigit (l : List Char) : Prop :=
  ∀ c ∈ l.head?, ¬c.isDigit

theorem digits_append (hl : l.all Char.isDigit) (hr : NoDigit rest) : digits (l ++ rest) = l := by
  rw [digits, List.takeWhile_append_of_pos (List.all_eq_true.mp hl)]
  cases rest
  case nil        => simp
  case cons c rest => simp [show c.isDigit = false by simpa using hr c rfl]

theorem afterDigits_append (hl : l.all Char.isDigit) (hr : NoDigit rest) :
    afterDigits (l ++ rest) = rest := by
  rw [afterDigits, List.dropWhile_append_of_pos (List.all_eq_true.mp hl)]
  cases rest
  case nil        => simp
  case cons c rest => simp [show c.isDigit = false by simpa using hr c rfl]

theorem all_toDigits : (Nat.toDigits 10 n).all Char.isDigit :=
  List.all_eq_true.mpr fun _ hc => Nat.isDigit_of_mem_toDigits (by decide) (by decide) hc

-- A number is written without leading zeros.
theorem toDigits_eq_cons (h : 0 < n) : ∃ c l, Nat.toDigits 10 n = c :: l ∧ c ≠ '0' := by
  induction n using Nat.strong_induction_on
  case h n ih =>
    by_cases hn : n < 10
    case pos =>
      refine ⟨n.digitChar, [], Nat.toDigits_of_lt_base hn, ?_⟩
      have hc : ∀ k < 10, 0 < k → k.digitChar ≠ '0' := by decide
      exact hc n hn h
    case neg =>
      obtain ⟨c, l, hl, hc⟩ := ih (n / 10) (by omega) (by omega)
      rw [Nat.toDigits_of_base_le (by decide) (by omega), hl]
      exact ⟨c, l ++ [(n % 10).digitChar], rfl, hc⟩

theorem readWhole_toDigits (hr : NoDigit rest) :
    readWhole (Nat.toDigits 10 n ++ rest) = some (n, rest) := by
  obtain rfl | h := Nat.eq_zero_or_pos n
  · rw [Nat.toDigits_zero]
    rfl
  · obtain ⟨c, l, hl, hc⟩ := toDigits_eq_cons h
    have hd := digits_append (all_toDigits (n := n)) hr
    have ha := afterDigits_append (all_toDigits (n := n)) hr
    have hn : Nat.toDigits 10 n ≠ [] := Nat.toDigits_ne_nil
    unfold readWhole
    split
    case h_1 he =>
      rw [hl] at he
      exact absurd (List.cons.inj he).left hc
    case h_2 => rw [hd, ha, if_neg hn, Nat.ofDigitChars_ten_toDigits]

theorem readSign_sign (h : l.head? ≠ some '-') : readSign (sign b ++ l) = (b, l) := by
  cases b
  case true  => rfl
  case false =>
    unfold sign readSign
    split
    case h_1 he => simp at he; simp [he] at h
    case h_2    => rfl

theorem noDigit_writeExponent {e : Option (Bool × List Char)} (hr : NoDigit rest) :
    NoDigit (writeExponent e ++ rest) := by
  cases e
  case none => exact hr
  case some => simp [NoDigit, writeExponent]

theorem noDigit_writeFraction (hr : NoDigit rest) : NoDigit (writeFraction l ++ rest) := by
  unfold writeFraction
  split
  case isTrue  => exact hr
  case isFalse => simp [NoDigit]

theorem readFraction_writeFraction (hl : l.all Char.isDigit) (hr : NoDigit rest)
    (hp : rest.head? ≠ some '.') : readFraction (writeFraction l ++ rest) = (l, rest) := by
  unfold writeFraction
  split
  case isTrue h =>
    unfold readFraction
    split
    case h_1 he => simp at he; simp [he] at hp
    case h_2    => simp [h]
  case isFalse h =>
    rw [List.cons_append, readFraction, digits_append hl hr, afterDigits_append hl hr, if_neg h]

theorem readExponent_writeExponent {e : Option (Bool × List Char)}
    (he : ∀ p ∈ e, p.2 ≠ [] ∧ p.2.all Char.isDigit) (hr : NoDigit rest)
    (hp : rest.head? ≠ some 'e' ∧ rest.head? ≠ some 'E') :
    readExponent (writeExponent e ++ rest) = (e, rest) := by
  cases e
  case none =>
    cases rest
    case nil         => rfl
    case cons c rest =>
      have hc : ¬(c = 'e' ∨ c = 'E') := by simpa using hp
      simp [writeExponent, readExponent, hc]
  case some p =>
    obtain ⟨neg, l⟩ := p
    obtain ⟨hn, hl⟩ := he _ rfl
    have hs : readExponentSign ((if neg then '-' else '+') :: (l ++ rest)) = (neg, l ++ rest) := by
      cases neg <;> rfl
    simp only [writeExponent, List.cons_append, readExponent, hs, digits_append hl hr,
      afterDigits_append hl hr]
    simp [hn]

end Numbers

section Strings

variable {c : Char} {n : Nat} {l rest : List Char} {s : List Char}

theorem hexValue_digitChar (h : n < 16) : hexValue n.digitChar = some n := by
  have hall : ∀ n < 16, hexValue n.digitChar = some n := by decide
  exact hall n h

theorem readHex_writeHex (h : n < 0x10000) : readHex (writeHex n ++ l) = some (n, l) := by
  have hv : ∀ k, hexValue (k % 16).digitChar = some (k % 16) :=
    fun k => hexValue_digitChar (Nat.mod_lt k (by decide))
  have hn : n / 4096 % 16 * 4096 + n / 256 % 16 * 256 + n / 16 % 16 * 16 + n % 16 = n := by omega
  simp [writeHex, readHex, hv, hn]

theorem readUnicode_writeHex (h : c.toNat < 0x10000) :
    readUnicode (writeHex c.toNat ++ l) = some (c, l) := by
  have hs : ¬(0xd800 ≤ c.toNat ∧ c.toNat ≤ 0xdfff) := by
    have hv : c.toNat < 0xd800 ∨ 0xdfff < c.toNat ∧ c.toNat < 0x110000 := c.valid
    omega
  rw [readUnicode, readHex_writeHex h]
  simp only [Option.bind_eq_bind, Option.bind_some]
  rw [if_neg (by omega), if_neg (by omega), Char.ofNat_toNat]
  rfl

theorem readUnicode_pair {u v : Nat} (hu : u < 0x400) (hv : v < 0x400) :
    readUnicode (writeHex (0xd800 + u) ++ '\\' :: 'u' :: (writeHex (0xdc00 + v) ++ l)) =
      some (.ofNat (0x10000 + u * 1024 + v), l) := by
  have hu₁ : 0xd800 ≤ 0xd800 + u ∧ 0xd800 + u ≤ 0xdbff := by omega
  have hv₁ : 0xdc00 ≤ 0xdc00 + v ∧ 0xdc00 + v ≤ 0xdfff := by omega
  have hu₂ : readHex (writeHex (0xd800 + u) ++ '\\' :: 'u' :: (writeHex (0xdc00 + v) ++ l)) =
    some (0xd800 + u, '\\' :: 'u' :: (writeHex (0xdc00 + v) ++ l)) := readHex_writeHex (by omega)
  have hv₂ : readHex (writeHex (0xdc00 + v) ++ l) = some (0xdc00 + v, l) :=
    readHex_writeHex (by omega)
  simp only [readUnicode, hu₂, hv₂, Option.bind_eq_bind, Option.bind_some, hu₁, hv₁, and_self,
    if_true, Nat.add_sub_cancel_left, Option.pure_def]

theorem readUnicode_surrogates (h : ¬c.toNat < 0x10000) :
    readUnicode (writeHex (0xd800 + (c.toNat - 0x10000) / 1024) ++
      '\\' :: 'u' :: (writeHex (0xdc00 + (c.toNat - 0x10000) % 1024) ++ l)) = some (c, l) := by
  have hv : c.toNat < 0xd800 ∨ 0xdfff < c.toNat ∧ c.toNat < 0x110000 := c.valid
  have hc : 0x10000 + (c.toNat - 0x10000) / 1024 * 1024 + (c.toNat - 0x10000) % 1024 = c.toNat := by
    omega
  rw [readUnicode_pair (by omega) (by omega), hc, Char.ofNat_toNat]

theorem readEscape_of_escapes {e : Char} (h : escapes.lookup c = some e) :
    readEscape (e :: l) = some (c, l) := by
  have hall : ∀ p ∈ escapes, p.2 ≠ 'u' ∧ p.2 ≠ '/' ∧
      (escapes.map Prod.swap).lookup p.2 = some p.1 := by decide
  obtain ⟨l₁, l₂, hl, _⟩ := List.lookup_eq_some_iff.mp h
  obtain ⟨hu, hs, hp⟩ := hall (c, e) (by rw [hl]; simp)
  rw [readEscape, if_neg hu, if_neg hs, hp]
  rfl

theorem readString_escape {l' : List Char} (h : readEscape l' = some (c, l)) :
    readString (n + 1) ('\\' :: l') = (readString n l).map fun r => (c :: r.1, r.2) := by
  rw [readString, if_neg (by decide), if_pos rfl, h]
  simp only [Option.bind_eq_bind, Option.bind_some]
  cases readString n l <;> rfl

theorem readString_writeChar :
    readString (n + 1) (writeChar c ++ l) = (readString n l).map fun r => (c :: r.1, r.2) := by
  unfold writeChar
  split
  case h_1 e he =>
    exact readString_escape (readEscape_of_escapes he)
  case h_2 hn =>
    have hq : c ≠ '"' := by rintro rfl; cases hn
    have hb : c ≠ '\\' := by rintro rfl; cases hn
    split
    case isTrue hp =>
      rw [List.singleton_append, readString, if_neg hq, if_neg hb, if_neg (not_lt.mpr hp.left)]
      cases readString n l <;> rfl
    case isFalse =>
      split
      case isTrue hc =>
        have he : readEscape ('u' :: (writeHex c.toNat ++ l)) = some (c, l) := by
          rw [readEscape, if_pos rfl, readUnicode_writeHex hc]
        exact readString_escape he
      case isFalse hc =>
        have he : readEscape ('u' :: (writeHex (0xd800 + (c.toNat - 0x10000) / 1024) ++
            '\\' :: 'u' :: (writeHex (0xdc00 + (c.toNat - 0x10000) % 1024) ++ l))) = some (c, l) := by
          rw [readEscape, if_pos rfl, readUnicode_surrogates hc]
        rw [←readString_escape he]
        simp only [List.cons_append, List.append_assoc]

theorem readString_write (h : s.length < n) :
    readString n (s.flatMap writeChar ++ '"' :: rest) = some (s, rest) := by
  induction s generalizing n
  case nil =>
    cases n
    case zero   => cases h
    case succ n => rfl
  case cons c s ih =>
    cases n
    case zero   => cases h
    case succ n =>
      rw [List.flatMap_cons, List.append_assoc, readString_writeChar, ih (by simpa using h)]
      rfl

theorem length_writeChar : 0 < (writeChar c).length := by
  unfold writeChar
  split
  case h_1 => simp
  case h_2 =>
    split
    case isTrue  => simp
    case isFalse => split <;> simp

theorem length_le_flatMap : s.length ≤ (s.flatMap writeChar).length := by
  induction s
  case nil         => rfl
  case cons c s ih =>
    have hc := length_writeChar (c := c)
    simp only [List.flatMap_cons, List.length_append, List.length_cons]
    omega

-- The rest of a written string leads to the string.
theorem readString_writeString (s : String) (rest : List Char) : ∃ l, writeString s ++ rest = '"' :: l ∧
    readString l.length l = some (s.toList, rest) := by
  refine ⟨s.toList.flatMap writeChar ++ '"' :: rest, by simp [writeString], readString_write ?_⟩
  have hl := length_le_flatMap (s := s.toList)
  simp only [List.length_append, List.length_cons]
  omega

end Strings

section RoundTrip

variable {j : Json} {n : Nat} {c : Char} {l rest : List Char}

-- What may come after a value.
def Follows (rest : List Char) : Prop :=
  ∀ c ∈ rest.head?, c ∈ [',', ']', '}']

-- The keys of every object are different, as those of a dict are.
inductive WellFormed : Json → Prop
  | null : WellFormed .null
  | bool {b : Bool} : WellFormed (.bool b)
  | num {k : Int} : WellFormed (.num k)
  | float {f : FloatLiteral} : WellFormed (.float f)
  | str {s : String} : WellFormed (.str s)
  | arr {items : List Json} : (∀ j ∈ items, WellFormed j) → WellFormed (.arr items)
  | obj {fields : List (String × Json)} :
    (fields.map Prod.fst).Nodup → (∀ f ∈ fields, WellFormed f.2) → WellFormed (.obj fields)

theorem Follows.ne (h : Follows rest) (hc : c ∉ [',', ']', '}']) : rest.head? ≠ some c :=
  fun he => hc (h c he)

theorem Follows.noDigit (h : Follows rest) : NoDigit rest := by
  intro c hc
  have hm := h c hc
  simp only [List.mem_cons, List.not_mem_nil, or_false] at hm
  obtain rfl | rfl | rfl := hm <;> decide

-- The parts of a number in front of what may follow a value.
private theorem readNumber_write {neg : Bool} {whole : Nat} {fraction : List Char}
    {e : Option (Bool × List Char)} (hf : fraction.all Char.isDigit)
    (he : ∀ p ∈ e, p.2 ≠ [] ∧ p.2.all Char.isDigit) (h : Follows rest) :
    readNumber (sign neg ++ (Nat.toDigits 10 whole ++
      (writeFraction fraction ++ (writeExponent e ++ rest)))) =
      some (ofParts neg whole fraction e, rest) := by
  have hr : NoDigit (writeExponent e ++ rest) := noDigit_writeExponent h.noDigit
  have hs : (Nat.toDigits 10 whole ++ (writeFraction fraction ++
      (writeExponent e ++ rest))).head? ≠ some '-' := by
    have hd := all_toDigits (n := whole)
    cases ht : Nat.toDigits 10 whole
    case nil      => exact absurd ht Nat.toDigits_ne_nil
    case cons c l =>
      rintro ⟨⟩
      rw [ht] at hd
      simp at hd
  have hp : (writeExponent e ++ rest).head? ≠ some '.' := by
    cases e
    case none => exact h.ne (by decide)
    case some => simp [writeExponent]
  rw [readNumber, readSign_sign hs, readWhole_toDigits (noDigit_writeFraction hr), Option.map_some]
  dsimp only
  rw [readFraction_writeFraction hf hr hp,
    readExponent_writeExponent he h.noDigit ⟨h.ne (by decide), h.ne (by decide)⟩]

theorem read_of_number (hc : c = '-' ∨ c.isDigit) : read (n + 1) (c :: l) = readNumber (c :: l) := by
  have hne : ∀ d, ¬(d = '-' ∨ d.isDigit) → c ≠ d := by
    rintro d hd rfl
    exact hd hc
  simp only [read, hne '"' (by decide), hne '{' (by decide), hne '[' (by decide),
    hne 'n' (by decide), hne 't' (by decide), hne 'f' (by decide), if_false]

-- A number begins with a sign or a digit.
private theorem number_eq_cons (neg : Bool) (whole : Nat) (l : List Char) :
    ∃ c l', sign neg ++ (Nat.toDigits 10 whole ++ l) = c :: l' ∧ (c = '-' ∨ c.isDigit) := by
  cases neg
  case true  => exact ⟨'-', _, rfl, .inl rfl⟩
  case false =>
    have hd := all_toDigits (n := whole)
    cases ht : Nat.toDigits 10 whole
    case nil      => exact absurd ht Nat.toDigits_ne_nil
    case cons c t =>
      rw [ht, List.all_cons, Bool.and_eq_true] at hd
      exact ⟨c, t ++ l, rfl, .inr hd.left⟩

theorem read_writeInt {k : Int} (h : Follows rest) :
    read (n + 1) (writeInt k ++ rest) = some (.num k, rest) := by
  have hn : writeInt k ++ rest = sign (k < 0) ++ (Nat.toDigits 10 k.natAbs ++
    (writeFraction [] ++ (writeExponent none ++ rest))) := by simp [writeInt, writeFraction, writeExponent]
  obtain ⟨c, l, hl, hc⟩ := number_eq_cons (k < 0) k.natAbs
    (writeFraction [] ++ (writeExponent none ++ rest))
  rw [hn, hl, read_of_number hc, ←hl, readNumber_write rfl (fun _ hp => by cases hp) h, ofParts, dif_neg (by simp)]
  have hk : (if decide (k < 0) = true then -(k.natAbs : Int) else k.natAbs) = k := by
    simp only [decide_eq_true_eq]
    split <;> omega
  rw [hk]

theorem read_writeFloat {f : FloatLiteral} (h : Follows rest) :
    read (n + 1) (writeFloat f ++ rest) = some (.float f, rest) := by
  have hn : writeFloat f ++ rest = sign f.negative ++ (Nat.toDigits 10 f.whole ++
    (writeFraction f.fraction ++ (writeExponent f.exponent ++ rest))) := by simp [writeFloat]
  obtain ⟨c, l, hl, hc⟩ := number_eq_cons f.negative f.whole
    (writeFraction f.fraction ++ (writeExponent f.exponent ++ rest))
  rw [hn, hl, read_of_number hc, ←hl, readNumber_write f.wf.left f.wf.right.left h, ofParts,
    dif_pos f.wf]

-- A value begins with a character that is neither blank nor the end of an array.
theorem write_eq_cons : ∃ c l, j.write = c :: l ∧ ¬isBlank c ∧ c ≠ ']' := by
  have hnum : ∀ neg whole l, ∃ c l', sign neg ++ (Nat.toDigits 10 whole ++ l) = c :: l' ∧
      ¬isBlank c ∧ c ≠ ']' := by
    intro neg whole l
    obtain ⟨c, l', hl, hc⟩ := number_eq_cons neg whole l
    have hne : ∀ d, ¬(d = '-' ∨ d.isDigit) → c ≠ d := by
      rintro d hd rfl
      exact hd hc
    refine ⟨c, l', hl, ?_, hne _ (by decide)⟩
    simp [isBlank, hne ' ' (by decide), hne '\t' (by decide), hne '\n' (by decide),
      hne '\r' (by decide)]
  cases j
  case null   => exact ⟨'n', _, rfl, by decide, by decide⟩
  case bool b => cases b <;> exact ⟨_, _, rfl, by decide, by decide⟩
  case num k  =>
    obtain ⟨c, l, hl, hc⟩ := hnum (k < 0) k.natAbs []
    exact ⟨c, l, by rw [←hl, List.append_nil]; rfl, hc⟩
  case float f =>
    obtain ⟨c, l, hl, hc⟩ := hnum f.negative f.whole (writeFraction f.fraction ++ writeExponent f.exponent)
    exact ⟨c, l, by rw [←hl]; simp [write, writeFloat], hc⟩
  case str s  => exact ⟨'"', _, rfl, by decide, by decide⟩
  case arr    => exact ⟨'[', _, by rw [write]; rfl, by decide, by decide⟩
  case obj    => exact ⟨'{', _, by rw [write]; rfl, by decide, by decide⟩

theorem skipBlanks_write (j : Json) (rest : List Char) : skipBlanks (j.write ++ rest) = j.write ++ rest := by
  obtain ⟨c, l, hl, hc, _⟩ := write_eq_cons (j := j)
  rw [hl, List.cons_append, skipBlanks, List.dropWhile_cons_of_neg hc]

theorem length_write : 0 < j.write.length := by
  obtain ⟨c, l, hl, _⟩ := write_eq_cons (j := j)
  simp [hl]

theorem follows_cons {l : List Char} (hc : c ∈ [',', ']', '}']) : Follows (c :: l) := by
  rintro _ ⟨⟩
  exact hc

theorem skipBlanks_cons (hc : ¬isBlank c) : skipBlanks (c :: l) = c :: l :=
  List.dropWhile_cons_of_neg hc

theorem writeItems_eq {items : List Json} : writeItems items = items.map write := by
  induction items
  case nil            => rfl
  case cons j items ih => rw [writeItems, ih, List.map_cons]

theorem writeFields_eq {fields : List (String × Json)} :
    writeFields fields = fields.map writeField := by
  induction fields
  case nil             => rfl
  case cons f fields ih => rw [writeFields, ih, List.map_cons]

theorem writeField_eq {f : String × Json} :
    writeField f = writeString f.1 ++ ": ".toList ++ f.2.write := by
  cases f
  rfl

-- Members are separated by a comma and a blank.
theorem intercalate_cons_cons {a b : List Char} {ls : List (List Char)} :
    ", ".toList.intercalate (a :: b :: ls) ++ l =
      a ++ ',' :: ' ' :: (", ".toList.intercalate (b :: ls) ++ l) := by
  rw [List.intercalate_cons_cons, List.append_assoc, List.append_assoc]
  rfl

theorem intercalate_write (j : Json) (items : List Json) (l : List Char) :
    ∃ l', ", ".toList.intercalate (j.write :: items.map write) ++ l = j.write ++ l' := by
  cases items
  case nil  => exact ⟨l, by simp [List.intercalate]⟩
  case cons => exact ⟨_, intercalate_cons_cons⟩

-- There is room for every member of a container.
theorem length_le_intercalate {ls : List (List Char)} (h : ∀ l ∈ ls, 0 < l.length) :
    ls.length ≤ (", ".toList.intercalate ls).length ∧
      ∀ l ∈ ls, l.length ≤ (", ".toList.intercalate ls).length := by
  induction ls
  case nil => simp
  case cons a ls ih =>
    have ha := h a (.head _)
    obtain ⟨hn, hl⟩ := ih fun l hl => h l (.tail _ hl)
    cases ls
    case nil => simp [List.intercalate]; omega
    case cons b ls =>
      have he : (", ".toList.intercalate (a :: b :: ls)).length =
          a.length + 2 + (", ".toList.intercalate (b :: ls)).length := by
        rw [List.intercalate_cons_cons, List.length_append, List.length_append]
        rfl
      rw [he]
      refine ⟨by simp only [List.length_cons] at hn ⊢; omega, ?_⟩
      rw [List.forall_mem_cons]
      exact ⟨by omega, fun l hm => by have := hl l hm; omega⟩

section Containers

variable {r : List Char → Option (Json × List Char)}

-- A reader of single values that reads the given value back.
def Inverts (r : List Char → Option (Json × List Char)) (j : Json) : Prop :=
  ∀ rest, Follows rest → r (j.write ++ rest) = some (j, rest)

theorem readItems_write {items : List Json} (rest : List Char) (hr : ∀ j ∈ items, Inverts r j) (hne : items ≠ [])
    (hn : items.length ≤ n) :
    readItems r n (", ".toList.intercalate (items.map write) ++ ']' :: rest) = some (items, rest) := by
  induction items generalizing n
  case nil => exact absurd rfl hne
  case cons j items ih =>
    cases n
    case zero => simp at hn
    case succ n =>
      have hj := hr j (.head _)
      cases items
      case nil =>
        have hi : ", ".toList.intercalate [j.write] = j.write := by simp [List.intercalate]
        rw [List.map_cons, List.map_nil, hi, readItems, hj _ (follows_cons (by simp))]
        simp only [Option.bind_eq_bind, Option.bind_some]
        rw [skipBlanks_cons (by decide)]
        rfl
      case cons k items =>
        have hk := ih (fun i hi => hr i (.tail _ hi)) (by simp) (by simpa using hn)
        rw [List.map_cons, List.map_cons, intercalate_cons_cons, readItems,
          hj _ (follows_cons (by simp))]
        simp only [Option.bind_eq_bind, Option.bind_some]
        rw [skipBlanks_cons (by decide)]
        have hb : skipBlanks (' ' :: (", ".toList.intercalate (k.write :: items.map write) ++
            ']' :: rest)) = ", ".toList.intercalate (k.write :: items.map write) ++ ']' :: rest := by
          obtain ⟨l, hl⟩ := intercalate_write k items (']' :: rest)
          rw [hl]
          exact skipBlanks_write k l
        rw [List.map_cons] at hk
        simp only [hb, hk, Option.bind_some, Option.pure_def]

theorem readField_write {f : String × Json} (hr : Inverts r f.2) (h : Follows rest) :
    ∃ l, writeField f ++ rest = '"' :: l ∧ readField r l = some (f, rest) := by
  obtain ⟨key, j⟩ := f
  obtain ⟨l, hl, hs⟩ := readString_writeString key (':' :: ' ' :: (j.write ++ rest))
  refine ⟨l, by rw [←hl, writeField]; simp, ?_⟩
  have hb : skipBlanks (' ' :: (j.write ++ rest)) = j.write ++ rest := skipBlanks_write j rest
  rw [readField, hs]
  simp only [Option.bind_eq_bind, Option.bind_some]
  rw [skipBlanks_cons (by decide)]
  simp only [hb, hr rest h, Option.bind_some, String.ofList_toList, Option.pure_def]

theorem readFields_write {fields : List (String × Json)} (rest : List Char) (hr : ∀ f ∈ fields, Inverts r f.2)
    (hne : fields ≠ []) (hn : fields.length ≤ n) :
    ∃ l, ", ".toList.intercalate (fields.map writeField) ++ '}' :: rest = '"' :: l ∧
      readFields r n l = some (fields, rest) := by
  induction fields generalizing n
  case nil => exact absurd rfl hne
  case cons f fields ih =>
    cases n
    case zero => simp at hn
    case succ n =>
      have hf := hr f (.head _)
      cases fields
      case nil =>
        obtain ⟨l, hl, hf⟩ := readField_write hf (follows_cons (l := rest) (c := '}') (by simp))
        refine ⟨l, by rw [←hl]; simp [List.intercalate], ?_⟩
        rw [readFields, hf]
        simp only [Option.bind_eq_bind, Option.bind_some]
        rw [skipBlanks_cons (by decide)]
        rfl
      case cons g fields =>
        obtain ⟨l', hl', hg⟩ := ih (fun i hi => hr i (.tail _ hi)) (by simp) (by simpa using hn)
        obtain ⟨l, hl, hf⟩ := readField_write hf (follows_cons (c := ',')
          (l := ' ' :: (", ".toList.intercalate ((g :: fields).map writeField) ++ '}' :: rest))
          (by simp))
        refine ⟨l, by rw [←hl]; exact intercalate_cons_cons, ?_⟩
        have hb : skipBlanks (' ' :: '"' :: l') = '"' :: l' := rfl
        rw [readFields, hf]
        simp only [Option.bind_eq_bind, Option.bind_some]
        rw [skipBlanks_cons (by decide)]
        simp only [hl', hb, hg, Option.bind_some, Option.pure_def]

theorem foldl_setField {d fields : List (String × Json)} (h : ((d ++ fields).map Prod.fst).Nodup) :
    fields.foldl setField d = d ++ fields := by
  induction fields generalizing d
  case nil => simp
  case cons f fields ih =>
    have hf : d.any (·.1 = f.1) = false := by
      rw [List.any_eq_false]
      intro g hg he
      rw [List.map_append, List.map_cons] at h
      have hd := (List.nodup_append.mp h).right.right g.1 (List.mem_map_of_mem hg) f.1 (.head _)
      exact hd (by simpa using he)
    have ha : d ++ f :: fields = d ++ [f] ++ fields := by simp
    rw [List.foldl_cons, setField, hf, if_neg (by decide), ih (by rwa [←ha]), ha]

theorem toDict_of_nodup {fields : List (String × Json)} (h : (fields.map Prod.fst).Nodup) :
    toDict fields = fields :=
  foldl_setField h

end Containers

-- A value is read back from its text, whatever follows it.
theorem read_write (hj : j.WellFormed) (hn : j.write.length ≤ n) : Inverts (read n) j := by
  induction hj generalizing n
  all_goals
    cases n
    case zero => exact absurd hn (Nat.not_le.mpr length_write)
  case null.succ n    => intro rest _; rfl
  case bool.succ b n  => intro rest _; cases b <;> rfl
  case num.succ n     => exact fun rest h => read_writeInt h
  case float.succ n   => exact fun rest h => read_writeFloat h
  case str.succ s n   =>
    intro rest _
    obtain ⟨l, hl, hs⟩ := readString_writeString s rest
    rw [write, hl, read, if_pos rfl, hs, Option.map_some, String.ofList_toList]
  case arr.succ items hitems ih n =>
    intro rest _
    have hl : ∀ l ∈ items.map write, 0 < l.length := List.forall_mem_map.mpr fun _ _ => length_write
    obtain ⟨hlen, hall⟩ := length_le_intercalate hl
    have ht : (Json.arr items).write ++ rest =
        '[' :: (", ".toList.intercalate (items.map write) ++ ']' :: rest) := by
      simp [write, writeItems_eq]
    have hb : (", ".toList.intercalate (items.map write)).length ≤ n := by
      have hs := congrArg List.length ht
      simp only [List.length_append, List.length_cons] at hs
      omega
    rw [List.length_map] at hlen
    have hr : ∀ j ∈ items, Inverts (read n) j :=
      fun j hj => ih j hj ((hall _ (List.mem_map_of_mem hj)).trans hb)
    rw [ht, read, if_neg (by decide), if_neg (by decide), if_pos rfl, readArray]
    cases items
    case nil          => rfl
    case cons j items =>
      have hi := readItems_write rest hr (by simp) (hlen.trans hb)
      obtain ⟨l, hl⟩ := intercalate_write j items (']' :: rest)
      obtain ⟨c, l', hj, _, hc⟩ := write_eq_cons (j := j)
      rw [List.map_cons, hl] at hi
      rw [List.map_cons, hl, skipBlanks_write]
      split
      case h_1 he =>
        rw [hj] at he
        exact absurd (List.cons.inj he).left hc
      case h_2 => rw [hi, Option.map_some]
  case obj.succ fields hnodup hfields ih n =>
    intro rest _
    have hl : ∀ l ∈ fields.map writeField, 0 < l.length :=
      List.forall_mem_map.mpr fun _ _ => by simp [writeField_eq, writeString]
    obtain ⟨hlen, hall⟩ := length_le_intercalate hl
    have ht : (Json.obj fields).write ++ rest =
        '{' :: (", ".toList.intercalate (fields.map writeField) ++ '}' :: rest) := by
      simp [write, writeFields_eq]
    have hb : (", ".toList.intercalate (fields.map writeField)).length ≤ n := by
      have hs := congrArg List.length ht
      simp only [List.length_append, List.length_cons] at hs
      omega
    rw [List.length_map] at hlen
    have hr : ∀ f ∈ fields, Inverts (read n) f.2 := by
      intro f hf
      have hw : f.2.write.length ≤ (writeField f).length := by
        rw [writeField_eq, List.length_append]
        omega
      exact ih f hf (hw.trans ((hall _ (List.mem_map_of_mem hf)).trans hb))
    rw [ht, read, if_neg (by decide), if_pos rfl, readObject]
    cases fields
    case nil           => rfl
    case cons f fields =>
      obtain ⟨l, hl, hf⟩ := readFields_write rest hr (by simp) (hlen.trans hb)
      rw [hl, skipBlanks_cons (by decide)]
      simp only [hf, Option.map_some, toDict_of_nodup hnodup]

-- `json.loads(json.dumps(j))`
theorem loads_dumps (h : j.WellFormed) : loads j.dumps = some j := by
  have hs : skipBlanks (j.dumps.toList) = j.write := by
    have hb := skipBlanks_write j []
    rw [dumps, String.toList_ofList]
    rwa [List.append_nil] at hb
  have hr := read_write (n := j.dumps.length) h (by simp [dumps]) [] nofun
  rw [List.append_nil] at hr
  rw [loads, hs, hr]
  rfl

end RoundTrip

end Json
