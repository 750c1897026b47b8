import EcmaScript.CharSet
import EcmaScript.Number.Basic

namespace EcmaScript

/-!
# Number literals

* `Number.ofLiteral?` — the value of a literal: a numeral in base 2, 8 or 16 behind its mark, an old
  octal numeral, or a decimal;
* `Number.ofRadixDigits?` — the value of digits in some base;
* `Number.ofDecimal?` — the value of a signed decimal, or of `inf`, `infinity` and `nan`.
-/

namespace Number

/-! ### Digits in a base -/

/-- Takes in one digit after the other: the value so far times the base, plus the digit. Each step
rounds to a double. -/
def accumulate? (base : Nat) : Float → List Char → Option Float
  | value, [] => some value
  | value, c :: rest =>
    match CharSet.digitValue? base c with
    | some d => accumulate? base (value * Float.ofNat base + Float.ofNat d) rest
    | none => none

/-- The value of one digit or more in some base. -/
def ofRadixDigits? (base : Nat) (digits : List Char) : Option Number :=
  if digits.isEmpty then none else (accumulate? base 0 digits).map ofFloat

/-! ### Decimals -/

/-- The number `digits · 10 ^ exponent`, rounded once. Powers of ten that no double reaches are not
computed. -/
def ofScaled (digits : Nat) (exponent : Int) : Number :=
  let size := digitCount digits + exponent
  if digits = 0 || size < -330 then zero
  else if 310 < size then infinity
  else ofFloat (Float.ofScientific digits (exponent < 0) exponent.natAbs)

/-- The value of decimal digits. -/
def digitsValue (digits : List Char) : Nat :=
  digits.foldl (fun v d => v * 10 + (d.toNat - '0'.toNat)) 0

/-- An exponent with its letter, or nothing. -/
def exponent? : List Char → Option Int
  | [] => some 0
  | c :: rest =>
    if c = 'e' || c = 'E' then
      let (negative, digits) :=
        match rest with
        | '-' :: r => (true, r)
        | '+' :: r => (false, r)
        | r => (false, r)
      if digits.isEmpty || !digits.all CharSet.decimalDigit.has then none
      else some (if negative then -(digitsValue digits : Int) else digitsValue digits)
    else none

/-- Digits with a point anywhere or nowhere, and an exponent or none. -/
def unsignedDecimal? (cs : List Char) : Option Number :=
  let whole := cs.takeWhile CharSet.decimalDigit.has
  let afterWhole := cs.drop whole.length
  let (fraction, tail) :=
    match afterWhole with
    | '.' :: rest =>
      let digits := rest.takeWhile CharSet.decimalDigit.has
      (digits, rest.drop digits.length)
    | _ => ([], afterWhole)
  if whole.isEmpty && fraction.isEmpty then none
  else
    (exponent? tail).map fun e => ofScaled (digitsValue (whole ++ fraction)) (e - fraction.length)

/-- A decimal, or one of the words for infinity and NaN in any case. -/
def unsigned? (cs : List Char) : Option Number :=
  let lower := String.ofList (cs.map Char.toLower)
  if lower = "inf" || lower = "infinity" then some infinity
  else if lower = "nan" then some nan
  else unsignedDecimal? cs

/-- A decimal with a sign or none. -/
def ofDecimal? : List Char → Option Number
  | '-' :: rest => (unsigned? rest).map negate
  | '+' :: rest => unsigned? rest
  | cs => unsigned? cs

/-! ### Literals -/

/-- Several octal digits, the first of them a zero. -/
def isOldOctal (cs : List Char) : Bool :=
  cs.length > 1 && cs.head? = some '0' && cs.all CharSet.octalDigit.has

/-- Takes one point off the end. -/
def dropFinalPoint (cs : List Char) : List Char :=
  if cs.getLast? = some '.' then cs.dropLast else cs

/-- The value of a number literal. -/
def ofLiteral? (raw : String) : Option Number :=
  match raw.toList with
  | '0' :: 'b' :: digits => ofRadixDigits? 2 digits
  | '0' :: 'B' :: digits => ofRadixDigits? 2 digits
  | '0' :: 'o' :: digits => ofRadixDigits? 8 digits
  | '0' :: 'O' :: digits => ofRadixDigits? 8 digits
  | '0' :: 'x' :: digits => ofRadixDigits? 16 digits
  | '0' :: 'X' :: digits => ofRadixDigits? 16 digits
  | cs => if isOldOctal cs then ofRadixDigits? 8 cs else ofDecimal? (dropFinalPoint cs)

end Number

end EcmaScript
