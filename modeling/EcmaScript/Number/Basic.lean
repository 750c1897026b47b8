import EcmaScript.Decimal.Layout

namespace EcmaScript

/-!
# Numbers

A number is a double, kept as its bits so that the sign of a NaN is not lost.

* `Number.equal`, `Number.order`, `Number.hashBits` — equality, order and what a hash depends on:
  NaN equals itself, and orders as equal to everything;
* `Number.display` — the text of a number as a key;
* `Number.numeral?` — the text of a number in a written tree; infinities and NaN have none.
-/

/-- A double in the format of 64 bits. -/
structure Number where
  bits : UInt64
deriving DecidableEq, Repr, Inhabited

namespace Number

/-- The number with the bits of a double. -/
def ofFloat (x : Float) : Number := ⟨x.toBits⟩

/-- The double with the bits of the number. -/
def toFloat (n : Number) : Float := Float.ofBits n.bits

/-- Is the sign bit set? -/
def isNegative (n : Number) : Bool := n.bits >>> 63 ≠ 0

/-- The eleven bits of the exponent. -/
def exponentField (n : Number) : Nat := ((n.bits >>> 52) &&& 0x7ff).toNat

/-- The lower 52 bits of the mantissa. -/
def fractionField (n : Number) : Nat := (n.bits &&& 0xfffffffffffff).toNat

/-- Neither an infinity nor a NaN. -/
def isFinite (n : Number) : Bool := n.exponentField ≠ 0x7ff

/-- All exponent bits set, and some bit of the fraction. -/
def isNaN (n : Number) : Bool := n.exponentField = 0x7ff && n.fractionField ≠ 0

/-- Either of the two zeros. -/
def isZero (n : Number) : Bool := n.exponentField = 0 && n.fractionField = 0

/-- The zero without a sign. -/
def zero : Number := ⟨0⟩

/-- The infinity without a sign. -/
def infinity : Number := ⟨0x7ff0000000000000⟩

/-- The NaN without a sign. -/
def nan : Number := ⟨0x7ff8000000000000⟩

/-- The number with the other sign; this works on zeros and NaN too. -/
def negate (n : Number) : Number := ⟨n.bits ^^^ 0x8000000000000000⟩

/-! ### Comparison -/

/-- Equality of doubles, except that every NaN equals every NaN. -/
def equal (a b : Number) : Bool :=
  if a.isNaN then b.isNaN else a.toFloat == b.toFloat

/-- The order of doubles, in which a NaN is equal to everything. -/
def order (a b : Number) : Ordering :=
  if a.toFloat < b.toFloat then .lt
  else if b.toFloat < a.toFloat then .gt
  else .eq

/-- What a hash of the number depends on: its bits, and nothing for a NaN. -/
def hashBits (n : Number) : Option UInt64 := if n.isNaN then none else some n.bits

/-! ### Text -/

/-- The size of a finite number that is not zero, as a binary fraction. -/
def magnitude (n : Number) : BinaryFraction :=
  if n.exponentField = 0 then ⟨n.fractionField, -1074, false⟩
  else
    -- At a power of two the numbers below lie twice as close, except at the smallest normal one.
    ⟨n.fractionField + 0x10000000000000, n.exponentField - 1075,
      n.fractionField = 0 && n.exponentField ≠ 1⟩

/-- The size of a finite number as the shortest decimal. -/
def decimal (n : Number) (tie : Tie) : Decimal :=
  if n.isZero then ⟨0, 0⟩ else n.magnitude.shortest tie

/-- The sign that is written before the digits. -/
def sign (n : Number) : String := if n.isNegative then "-" else ""

/-- The text of a number as a key: never an exponent, and no point after a whole number. -/
def display (n : Number) : String :=
  if n.isNaN then "NaN"
  else if n.isFinite then n.sign ++ (n.decimal .up).plain ""
  else n.sign ++ "inf"

/-- The text of a finite number in a written tree. Numbers from `0.00001` up to sixteen digits
before the point are written without an exponent, and then always with a point. -/
def numeral? (n : Number) : Option String :=
  if n.isFinite then
    let d := n.decimal .toEven
    let k := d.leadingExponent
    some (n.sign ++ if -5 ≤ k && k ≤ 15 then d.plain ".0" else d.scientific)
  else none

/-- The bits as sixteen hexadecimal digits. -/
def hexBits (n : Number) : String :=
  let digits := String.ofList (Nat.toDigits 16 n.bits.toNat)
  Decimal.zeros (16 - digits.length) ++ digits

end Number

end EcmaScript
