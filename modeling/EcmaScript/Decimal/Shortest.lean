namespace EcmaScript

/-!
# Shortest decimals

The decimal with the fewest digits among those that read back as a given binary fraction.

* `Decimal` — a numeral times a power of ten;
* `BinaryFraction` — a numeral times a power of two, with the reals that round to it;
* `BinaryFraction.shortest` — of the decimals with the fewest digits that round to the fraction, the
  nearest one. A `Tie` settles which of two equally near ones it is.
-/

/-- The number `digits · 10 ^ exponent`. -/
structure Decimal where
  digits : Nat
  exponent : Int
deriving DecidableEq, Repr, Inhabited

/-- Which of two equally near decimals is taken. -/
inductive Tie where
  /-- The one with the even last digit. -/
  | toEven
  /-- The greater one. -/
  | up
deriving DecidableEq, Repr, Inhabited

/-- Number of decimal digits; zero has one. -/
def digitCount (n : Nat) : Nat := (Nat.toDigits 10 n).length

namespace Decimal

/-- Takes zeros off the end of the digits, at most `n` of them. -/
def trim (n : Nat) (d : Decimal) : Decimal :=
  match n with
  | 0 => d
  | n + 1 =>
    if d.digits ≠ 0 && d.digits % 10 = 0 then trim n ⟨d.digits / 10, d.exponent + 1⟩ else d

/-- The power of ten of the first digit. -/
def leadingExponent (d : Decimal) : Int := d.exponent + digitCount d.digits - 1

end Decimal

/-- The positive number `mantissa · 2 ^ exponent`, as a floating-point number. `narrowBelow` says
that the next number below is half as far away as the next one above. -/
structure BinaryFraction where
  mantissa : Nat
  exponent : Int
  narrowBelow : Bool
deriving DecidableEq, Repr, Inhabited

namespace BinaryFraction

/-- The factor by which quarters of the last place, `2 ^ (exponent - 2)`, are counted in the grid of
multiples of `10 ^ k`: a number of quarters `x` is the grid point `d` when `x * fst = d * snd`. -/
def scale (f : BinaryFraction) (k : Int) : Nat × Nat :=
  let e := f.exponent - 2
  (Nat.pow 2 e.toNat * Nat.pow 10 (-k).toNat, Nat.pow 2 (-e).toNat * Nat.pow 10 k.toNat)

/-- The power of ten of the first digit: the greatest `k` with `10 ^ k` at most the number. -/
def leadingExponent (f : BinaryFraction) : Int :=
  let num := f.mantissa * Nat.pow 2 f.exponent.toNat
  let den := Nat.pow 2 (-f.exponent).toNat
  if den ≤ num then digitCount (num / den) - 1
  else -(digitCount ((den + num - 1) / num - 1))

/-- Does a number in quarters of the last place, scaled, round to the fraction? The ends of the
interval do when the mantissa is even. -/
def rounds (f : BinaryFraction) (unit point : Nat) : Bool :=
  let low := (4 * f.mantissa - if f.narrowBelow then 1 else 2) * unit
  let high := (4 * f.mantissa + 2) * unit
  if f.mantissa % 2 = 0 then low ≤ point && point ≤ high else low < point && point < high

/-- The nearest of the points of a grid that round to the fraction. Only the two points next to the
fraction need a look: one further away lies behind one of them. -/
def nearest? (f : BinaryFraction) (tie : Tie) (k : Int) : Option Decimal :=
  let (unit, step) := f.scale k
  let value := 4 * f.mantissa * unit
  let below := value / step
  let above := below + 1
  let takeAbove :=
    match compare (above * step - value) (value - below * step) with
    | .lt => true
    | .gt => false
    | .eq =>
      match tie with
      | .toEven => below % 2 = 1
      | .up => true
  match f.rounds unit (below * step), f.rounds unit (above * step) with
  -- Both have as few digits, so the distance decides.
  | true, true => some ⟨if takeAbove then above else below, k⟩
  | true, false => some ⟨below, k⟩
  | false, true => some ⟨above, k⟩
  | false, false => none

/-- The decimal with the fewest digits that rounds to the fraction; seventeen always do. -/
def shortest (f : BinaryFraction) (tie : Tie) : Decimal :=
  let first := f.leadingExponent
  -- One grid after the other, from a single digit on.
  let found := (List.range 17).findSome? fun (n : Nat) => f.nearest? tie (first - n)
  (found.getD ⟨0, 0⟩).trim 17

end BinaryFraction

end EcmaScript
