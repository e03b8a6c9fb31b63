import GenHeap.Digits

/-!
Decimal numbers as they are written, and the double nearest to each.
-/

namespace GenHeap

/-- A sign, the digits of a whole number, and the power of ten that it is multiplied by. -/
structure Decimal where
  negative : Bool := false
  digits : List Char
  exponent : Int := 0
  deriving DecidableEq, Repr

namespace Decimal

/-- Reads digits that may have a minus in front, and a fraction and an exponent behind them. -/
def ofText (text : List Char) : Decimal :=
  let unsigned := text.dropWhile (· == '-')
  let (mantissa, power) := unsigned.span fun c => c != 'e' && c != 'E'
  let (whole, fraction) := mantissa.span (· != '.')
  let exponent : Int := ofDigits 10 (power.filter Char.isDigit)
  { negative := text.head? == some '-'
    digits := whole ++ fraction.drop 1
    exponent := (if power.contains '-' then -exponent else exponent) - (fraction.length - 1 : Nat) }

/-- The powers of ten between which doubles lie, with room to spare. -/
def leastPower : Int := -400
def greatestPower : Int := 400

/-- The double nearest to a number that is not negative: zero and infinity where no others are
near. -/
def magnitude (d : Decimal) : Float :=
  let digits := d.digits.dropWhile (· == '0')
  let power := digits.length + d.exponent
  if digits.isEmpty || power < leastPower then 0.0
  else if greatestPower < power then 1.0 / 0.0
  else Float.ofScientific (ofDigits 10 digits) (d.exponent < 0) d.exponent.natAbs

/-- The nearest double; a zero keeps its sign. -/
def toFloat (d : Decimal) : Float := if d.negative then -d.magnitude else d.magnitude

end Decimal

end GenHeap
