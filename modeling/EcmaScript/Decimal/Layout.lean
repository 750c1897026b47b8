import EcmaScript.Decimal.Shortest

namespace EcmaScript

/-!
# Layout of decimals

* `Decimal.plain` — digits around a point, without an exponent;
* `Decimal.scientific` — one digit, a point, the other digits, and an exponent with its sign.
-/

namespace Decimal

/-- A run of zeros. -/
def zeros (n : Nat) : String := String.ofList (List.replicate n '0')

/-- Puts a point before the last `places` digits, with a zero before the point if need be. -/
def withPoint (digits : String) (places : Nat) : String :=
  let padded := zeros (places + 1 - digits.length) ++ digits
  let cs := padded.toList
  String.ofList (cs.take (cs.length - places)) ++ "."
    ++ String.ofList (cs.drop (cs.length - places))

/-- The decimal without an exponent; `wholeSuffix` follows one that has no fraction. -/
def plain (d : Decimal) (wholeSuffix : String) : String :=
  if 0 ≤ d.exponent then
    toString d.digits ++ zeros (if d.digits = 0 then 0 else d.exponent.toNat) ++ wholeSuffix
  else withPoint (toString d.digits) (-d.exponent).toNat

/-- The decimal with one digit before the point and an exponent; no point when there is only one
digit. -/
def scientific (d : Decimal) : String :=
  let e := d.leadingExponent
  let mantissa :=
    match (toString d.digits).toList with
    | first :: [] => String.singleton first
    | first :: rest => String.singleton first ++ "." ++ String.ofList rest
    | [] => ""
  mantissa ++ "e" ++ (if e < 0 then "-" else "+") ++ toString e.natAbs

end Decimal

end EcmaScript
