import EcmaScript.CharSet
import EcmaScript.Token.Kind

namespace EcmaScript

/-!
# Lexemes

The longest pieces of text that make one token: identifiers and keywords, numbers, strings, private
names, punctuators. A lexeme is its kind and its number of characters; a text that breaks off inside
a lexeme gives an invalid one, which covers what was read until then.

* `Lexeme.read` — the lexeme that a text begins with, when no trivia stands before it;
* `Lexeme.word`, `Lexeme.number`, `Lexeme.string`, `Lexeme.privateName`, `Lexeme.punctuator` — the
  classes it chooses from by the first character.
-/

/-- The kind and the length, in characters, of the front of a text. -/
structure Lexeme where
  kind : TokenKind
  length : Nat
deriving DecidableEq, Repr, Inhabited

namespace Lexeme

/-- Number of characters at the front of a text that belong to a set. -/
def run (set : CharSet) (cs : List Char) : Nat := (cs.takeWhile set.has).length

/-- Is the character one of the first 128? -/
def isAscii (c : Char) : Bool := c.toNat < 128

/-- Characters beyond ASCII belong to identifiers unless they are blank. -/
def isForeignLetter (c : Char) : Bool := !isAscii c && !CharSet.blank.has c

/-! ### Unicode escapes in identifiers -/

/-- How the text after a backslash reads as a Unicode escape: complete, or broken off. Both count
the characters from the backslash on. -/
inductive EscapeScan where
  | complete (length : Nat)
  | broken (length : Nat)
deriving DecidableEq, Repr

/-- Reads `\uHHHH`, or `\u` and one or more hexadecimal digits in braces. -/
def scanEscape : List Char → EscapeScan
  | '\\' :: 'u' :: '{' :: rest =>
    let digits := run .hexDigit rest
    if digits ≠ 0 && (rest.drop digits).head? = some '}' then .complete (digits + 4)
    else .broken (digits + 3)
  | '\\' :: 'u' :: rest =>
    let digits := run .hexDigit (rest.take 4)
    if digits = 4 then .complete 6 else .broken (digits + 2)
  | _ => .broken 1

theorem length_pos_of_scanEscape {cs : List Char} {n : Nat} (h : scanEscape cs = .complete n) :
    0 < n := by
  unfold scanEscape at h
  split at h
  · dsimp only at h
    split at h
    · injection h with h
      omega
    · simp at h
  · dsimp only at h
    split at h
    · injection h with h
      omega
    · simp at h
  · simp at h

/-! ### Identifiers, keywords and private names -/

/-- Number of characters by which an identifier goes on: identifier characters, complete escapes and
foreign letters. -/
def identifierTail (cs : List Char) : Nat :=
  match cs with
  | [] => 0
  | c :: rest =>
    if CharSet.identifierContinue.has c || isForeignLetter c then identifierTail rest + 1
    else if c = '\\' then
      match _h : scanEscape (c :: rest) with
      | .complete n => n + identifierTail ((c :: rest).drop n)
      -- The backslash is left for the next token.
      | .broken _ => 0
    else 0
termination_by cs.length
decreasing_by
  · simp
  · have := length_pos_of_scanEscape _h
    simp only [List.length_drop, List.length_cons]
    omega

/-- An identifier or a keyword, whose first character is an ASCII letter, `$` or `_`: the run of
ASCII identifier characters decides whether it is a keyword. -/
def word (cs : List Char) : Lexeme :=
  let ascii := cs.take (run .identifierContinue cs)
  match Keyword.ofSpelling? (String.ofList ascii) with
  -- A keyword ends here, even where a foreign letter or an escape follows at once.
  | some k => ⟨.keyword k, ascii.length⟩
  | none => ⟨.identifier, identifierTail cs⟩

/-- An identifier whose first character is written as an escape. -/
def escapedIdentifier (cs : List Char) : Lexeme :=
  match scanEscape cs with
  | .complete n => ⟨.identifier, n + identifierTail (cs.drop n)⟩
  | .broken n => ⟨.invalid, n⟩

/-- Number of characters of a private name after its sigil; none when no identifier starts there. -/
def privateTail : List Char → Nat
  | [] => 0
  | c :: rest =>
    if c = '\\' then
      match scanEscape (c :: rest) with
      | .complete n => n + identifierTail ((c :: rest).drop n)
      | .broken _ => 0
    else if CharSet.identifierStart.has c || isForeignLetter c then identifierTail rest + 1
    else 0

/-- A private name, given the text after its sigil. The name may be missing. -/
def privateName (afterSigil : List Char) : Lexeme := ⟨.privateName, privateTail afterSigil + 1⟩

/-! ### Numbers and strings -/

/-- Number of characters of an exponent: its letter, a sign, digits. The sign and the digits may be
missing, but a text may not end right after the letter: that gives nothing. -/
def exponentTail? : List Char → Option Nat
  | c :: rest =>
    if c = 'e' || c = 'E' then
      match rest with
      -- The text ends right behind the letter.
      | [] => none
      | s :: digits =>
        if s = '+' || s = '-' then some (run .decimalDigit digits + 2)
        else some (run .decimalDigit rest + 1)
    else some 0
  | [] => some 0

/-- A decimal number: digits, a point with more digits, an exponent. -/
def decimalNumber (cs : List Char) : Lexeme :=
  let whole := run .decimalDigit cs
  let afterWhole := cs.drop whole
  let fraction :=
    match afterWhole with
    | '.' :: rest => run .decimalDigit rest + 1
    | _ => 0
  match exponentTail? (afterWhole.drop fraction) with
  | some n => ⟨.number, whole + fraction + n⟩
  -- What was read includes the letter of the exponent.
  | none => ⟨.invalid, whole + fraction + 1⟩

/-- A number in another base, given what follows the two characters that name the base. -/
def radixNumber (digit : CharSet) (afterMark : List Char) : Lexeme :=
  ⟨.number, run digit afterMark + 2⟩

/-- A number in any base. -/
def number : List Char → Lexeme
  | '0' :: 'b' :: rest => radixNumber .binaryDigit rest
  | '0' :: 'B' :: rest => radixNumber .binaryDigit rest
  | '0' :: 'o' :: rest => radixNumber .octalDigit rest
  | '0' :: 'O' :: rest => radixNumber .octalDigit rest
  | '0' :: 'x' :: rest => radixNumber .hexDigit rest
  | '0' :: 'X' :: rest => radixNumber .hexDigit rest
  | cs => decimalNumber cs

/-- The rest of a string after its opening quote and `read` more characters. A backslash takes the
character after it along; an LF, or the end of the text, breaks the string off. -/
def stringTail (quote : Char) (read : Nat) : List Char → Lexeme
  | [] => ⟨.invalid, read⟩
  | ['\\'] => ⟨.invalid, read + 1⟩
  | '\\' :: _ :: rest => stringTail quote (read + 2) rest
  | c :: rest =>
    if c = '\n' then ⟨.invalid, read + 1⟩
    else if c = quote then ⟨.string, read + 1⟩
    else stringTail quote (read + 1) rest

/-- A string, given its quote and what follows it. -/
def string (quote : Char) (afterQuote : List Char) : Lexeme := stringTail quote 1 afterQuote

/-! ### The lexeme at the front of a text -/

/-- The longest punctuator at the front of a text; a character that begins none is invalid. -/
def punctuator (cs : List Char) : Lexeme :=
  match Punctuator.longest? cs with
  | some p => ⟨.punctuator p, p.spelling.length⟩
  | none => ⟨.invalid, 1⟩

/-- Does a number begin here? A point begins one when a digit follows. -/
def startsNumber : List Char → Bool
  | '.' :: c :: _ => CharSet.decimalDigit.has c
  | c :: _ => CharSet.decimalDigit.has c
  | [] => false

/-- The lexeme that a text begins with. A sigil begins a private name only where private names are
on, and a character that begins nothing is invalid by itself. -/
def read (privateNames : Bool) : List Char → Lexeme
  | [] => ⟨.eof, 0⟩
  | c :: rest =>
    if !isAscii c then ⟨.identifier, identifierTail rest + 1⟩
    else if CharSet.identifierStart.has c then word (c :: rest)
    else if c = '\\' then escapedIdentifier (c :: rest)
    else if startsNumber (c :: rest) then number (c :: rest)
    else if c = '"' || c = '\'' then string c rest
    else if c = '#' && privateNames then privateName rest
    else punctuator (c :: rest)

/-! ### Only the end of the text reads as such -/

theorem word_kind_ne_eof (cs : List Char) : (word cs).kind ≠ .eof := by
  unfold word
  dsimp only
  split <;> simp

theorem escapedIdentifier_kind_ne_eof (cs : List Char) : (escapedIdentifier cs).kind ≠ .eof := by
  unfold escapedIdentifier
  split <;> simp

theorem decimalNumber_kind_ne_eof (cs : List Char) : (decimalNumber cs).kind ≠ .eof := by
  unfold decimalNumber
  dsimp only
  split <;> simp

theorem number_kind_ne_eof (cs : List Char) : (number cs).kind ≠ .eof := by
  unfold number
  split
  case h_7 => exact decimalNumber_kind_ne_eof _
  all_goals simp [radixNumber]

theorem stringTail_kind_ne_eof (quote : Char) (read : Nat) (cs : List Char) :
    (stringTail quote read cs).kind ≠ .eof := by
  fun_induction stringTail quote read cs <;> simp_all

theorem punctuator_kind_ne_eof (cs : List Char) : (punctuator cs).kind ≠ .eof := by
  unfold punctuator
  split <;> simp

theorem read_cons_kind_ne_eof (privateNames : Bool) (c : Char) (rest : List Char) :
    (read privateNames (c :: rest)).kind ≠ .eof := by
  simp only [read]
  split
  · simp
  split
  · exact word_kind_ne_eof _
  split
  · exact escapedIdentifier_kind_ne_eof _
  split
  · exact number_kind_ne_eof _
  split
  · exact stringTail_kind_ne_eof _ _ _
  split
  · simp [privateName]
  · exact punctuator_kind_ne_eof _

end Lexeme

end EcmaScript
