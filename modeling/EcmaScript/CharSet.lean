namespace EcmaScript

/-!
# Sets of characters

A set is a list of inclusive ranges, possibly complemented.

* `CharSet.insert`, `CharSet.insertRange`, `CharSet.insertAll` add members to the ranges;
* `CharSet.complement` swaps inside and outside;
* the tables `decimalDigit`, `binaryDigit`, `octalDigit`, `hexDigit`, `identifierStart` and
  `identifierContinue` list ASCII characters only: other identifier characters are the lexer's
  business;
* `lineTerminator` and `whitespace` are the two classes that stand between tokens, and `blank`
  is the Unicode property White_Space, which ends an identifier.
-/

/-- Inclusive ranges of characters, and whether the set is their complement. -/
structure CharSet where
  ranges : List (Char × Char)
  inverted : Bool
deriving DecidableEq, Repr, Inhabited

namespace CharSet

instance : EmptyCollection CharSet := ⟨⟨[], false⟩⟩

/-- Some range contains the character. -/
def covers (s : CharSet) (c : Char) : Bool := s.ranges.any fun r => r.1 ≤ c && c ≤ r.2

/-- Is the character in the set? -/
def has (s : CharSet) (c : Char) : Bool := s.covers c != s.inverted

/-- Adds every character from `first` to `last`; nothing when they are in the wrong order. -/
def insertRange (s : CharSet) (first last : Char) : CharSet :=
  { s with ranges := (first, last) :: s.ranges }

/-- The set with one more character among its ranges. -/
def insert (s : CharSet) (c : Char) : CharSet := s.insertRange c c

/-- The set with more characters among its ranges. -/
def insertAll (s : CharSet) (cs : List Char) : CharSet := cs.foldl insert s

/-- All the characters that are not in the set. -/
def complement (s : CharSet) : CharSet := { s with inverted := !s.inverted }

/-- The set of the characters that lie in one of the ranges. -/
def ofRanges (ranges : List (Char × Char)) : CharSet := ⟨ranges, false⟩

/-- The set of the listed characters. -/
def ofList (cs : List Char) : CharSet := ofRanges (cs.map fun c => (c, c))

theorem has_ofList {cs : List Char} {c : Char} : (ofList cs).has c = true ↔ c ∈ cs := by
  have hrange (d : Char) : (d ≤ c && c ≤ d) = true ↔ c = d := by
    rw [Bool.and_eq_true, decide_eq_true_iff, decide_eq_true_iff]
    exact ⟨fun h => Char.le_antisymm h.2 h.1, fun h => h ▸ ⟨Char.le_refl c, Char.le_refl c⟩⟩
  simp only [has, covers, ofList, ofRanges, List.any_map, Bool.bne_false, List.any_eq_true,
    Function.comp_apply, hrange, exists_eq_right']

@[simp] theorem has_complement (s : CharSet) (c : Char) : s.complement.has c = !s.has c := by
  simp [has, complement, covers]

/-! ### Digits and identifier characters -/

/-- The digits of decimal numbers. -/
def decimalDigit : CharSet := ofRanges [('0', '9')]

/-- The digits in base 2. -/
def binaryDigit : CharSet := ofRanges [('0', '1')]

/-- The digits in base 8. -/
def octalDigit : CharSet := ofRanges [('0', '7')]

/-- The digits in base 16, in either case. -/
def hexDigit : CharSet := ofRanges [('0', '9'), ('a', 'f'), ('A', 'F')]

/-- The ASCII characters that can start an identifier. -/
def identifierStart : CharSet := ofRanges [('a', 'z'), ('A', 'Z'), ('$', '$'), ('_', '_')]

/-- The ASCII characters that can continue an identifier. -/
def identifierContinue : CharSet :=
  ofRanges [('a', 'z'), ('A', 'Z'), ('0', '9'), ('$', '$'), ('_', '_')]

/-! ### Characters between tokens -/

/-- The characters that end a line: LF, CR, line separator, paragraph separator. -/
def lineTerminator : CharSet := ofList ['\n', '\r', '\u2028', '\u2029']

/-- The characters that separate tokens without ending a line. -/
def whitespace : CharSet :=
  ofRanges [(' ', ' '), ('\t', '\t'), ('\x0b', '\x0c'), ('\u00a0', '\u00a0'),
    ('\u1680', '\u1680'), ('\u2000', '\u200a'), ('\u202f', '\u202f'), ('\u205f', '\u205f'),
    ('\u3000', '\u3000'), ('\ufeff', '\ufeff')]

/-- The characters with the Unicode property White_Space. -/
def blank : CharSet :=
  ofRanges [(' ', ' '), ('\t', '\r'), ('\u0085', '\u0085'), ('\u00a0', '\u00a0'),
    ('\u1680', '\u1680'), ('\u2000', '\u200a'), ('\u2028', '\u2029'), ('\u202f', '\u202f'),
    ('\u205f', '\u205f'), ('\u3000', '\u3000')]

/-- Blank characters take in everything that core counts as whitespace. -/
theorem has_blank_of_isWhitespace {c : Char} (h : c.isWhitespace = true) : blank.has c = true := by
  simp only [Char.isWhitespace, Bool.or_eq_true, decide_eq_true_eq] at h
  rcases h with ((rfl | rfl) | rfl) | rfl <;> decide

/-! ### Values of digits -/

/-- The value of a digit in a base up to sixteen. -/
def digitValue? (base : Nat) (c : Char) : Option Nat :=
  let value? :=
    if '0' ≤ c && c ≤ '9' then some (c.toNat - '0'.toNat)
    else if 'a' ≤ c && c ≤ 'f' then some (c.toNat - 'a'.toNat + 10)
    else if 'A' ≤ c && c ≤ 'F' then some (c.toNat - 'A'.toNat + 10)
    else none
  value?.filter (· < base)

end CharSet

end EcmaScript
