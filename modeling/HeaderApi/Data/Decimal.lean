/-
# Decimal fractions

Numbers with a fraction or an exponent, held exactly, and their shortest text: positional when
the point falls within sixteen places, with an exponent otherwise.
-/

namespace HeaderApi

/-- The number `mantissa · 10 ^ exponent`. -/
structure Decimal where
  mantissa : Int
  exponent : Int
  deriving DecidableEq, Repr, Inhabited

namespace Decimal

/-- Drops at most `fuel` zeros from the end of a mantissa. -/
def dropZeros : Nat → Int → Int → Decimal
  | 0, m, e => ⟨m, e⟩
  | fuel + 1, m, e => if m % 10 = 0 then dropZeros fuel (m / 10) (e + 1) else ⟨m, e⟩

/-- The form whose mantissa does not end in a zero. -/
def normalize (d : Decimal) : Decimal :=
  if d.mantissa = 0 then ⟨0, 0⟩
  else dropZeros (Nat.toDigits 10 d.mantissa.natAbs).length d.mantissa d.exponent

/-- The integer that a decimal equals, if any. -/
def toInt? (d : Decimal) : Option Int :=
  let n := d.normalize
  if 0 ≤ n.exponent then some (n.mantissa * Int.pow 10 n.exponent.toNat) else none

/-- The digits of a number. -/
def digits (n : Nat) : List Char := Nat.toDigits 10 n

/-- The text of an integer. -/
def intText (n : Int) : List Char :=
  if n < 0 then '-' :: digits n.natAbs else digits n.natAbs

/-- An exponent with its sign and at least two digits. -/
def exponentText (e : Int) : List Char :=
  let ds := digits e.natAbs
  (if e < 0 then '-' else '+') :: (if ds.length < 2 then '0' :: ds else ds)

/-- The text of a positive decimal with the given digits and position of the point. -/
def positiveText (ds : List Char) (point : Int) : List Char :=
  if -4 < point && point ≤ 16 then
    if point ≤ 0 then '0' :: '.' :: List.replicate (-point).toNat '0' ++ ds
    else if (ds.length : Int) ≤ point then
      ds ++ List.replicate (point.toNat - ds.length) '0' ++ ".0".toList
    else ds.take point.toNat ++ '.' :: ds.drop point.toNat
  else
    match ds with
    | [] => []
    | [d] => d :: 'e' :: exponentText (point - 1)
    | d :: rest => d :: '.' :: rest ++ 'e' :: exponentText (point - 1)

/-- The shortest text of a decimal. -/
def toText (d : Decimal) : List Char :=
  let n := d.normalize
  if n.mantissa = 0 then "0.0".toList
  else
    let ds := digits n.mantissa.natAbs
    let text := positiveText ds (ds.length + n.exponent)
    if n.mantissa < 0 then '-' :: text else text

end Decimal

end HeaderApi
