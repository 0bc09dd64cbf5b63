import CommandScript.Number.Binary

/-!
The shortest decimal that reads back as a given float, and of those the nearest to it.
-/
namespace CommandScript.Number

structure Decimal where
  digits : Nat
  exponent : Int
deriving DecidableEq, Repr

structure Interval where
  low : Nat
  value : Nat
  high : Nat
  den : Nat
  /-- whether the bounds themselves round to the float -/
  closed : Bool

/-- The interval of a positive mantissa and exponent. Below a power of two the spacing halves. -/
def Interval.of (mantissa : Nat) (exponent : Int) : Interval :=
  let below := if mantissa = twoTo 52 ∧ exponent ≠ -1074 then 1 else 2
  let scale := exponent - 2
  let up := twoTo scale.toNat
  { low := (4 * mantissa - below) * up
    value := 4 * mantissa * up
    high := (4 * mantissa + 2) * up
    den := twoTo (-scale).toNat
    closed := mantissa % 2 = 0 }

def Interval.holds (i : Interval) (n : Nat) (exponent : Int) : Bool :=
  let scaled := n * tenTo exponent.toNat * i.den
  let tens := tenTo (-exponent).toNat
  if i.closed then i.low * tens ≤ scaled && scaled ≤ i.high * tens
  else i.low * tens < scaled && scaled < i.high * tens

/-- The number of digits before the decimal point of `num / den`, counted up from a guess that is
not too large; for numbers below one it is zero or less. -/
def pointPosition (num den : Nat) : Nat → Int → Int
  | 0, p => p
  | fuel + 1, p =>
    if num * tenTo (-p).toNat < den * tenTo p.toNat then p else pointPosition num den fuel (p + 1)

/-- The better of the value's two neighbours with digits down to `10 ^ exponent`, if one of them
reads back. -/
def Interval.neighbour? (i : Interval) (exponent : Int) : Option Decimal :=
  let num := i.value * tenTo (-exponent).toNat
  let den := i.den * tenTo exponent.toNat
  let down := num / den
  let twice := 2 * (num % den)
  match i.holds down exponent, i.holds (down + 1) exponent with
  | true, true =>
    if twice < den ∨ (twice = den ∧ down % 2 = 0) then some ⟨down, exponent⟩
    else some ⟨down + 1, exponent⟩
  | true, false => some ⟨down, exponent⟩
  | false, true => some ⟨down + 1, exponent⟩
  | false, false => none

def Interval.search (i : Interval) (point : Int) : Nat → Nat → Decimal
  | 0, count =>
    ⟨i.value * tenTo (-(point - count)).toNat / (i.den * tenTo (point - count).toNat),
      point - count⟩
  | fuel + 1, count =>
    match i.neighbour? (point - count) with
    | some d => d
    | none => i.search point fuel (count + 1)

/-- The shortest decimal of a positive finite float; seventeen digits are always enough. -/
def shortest (mantissa : Nat) (exponent : Int) : Decimal :=
  let i := Interval.of mantissa exponent
  let guess : Int := ((Nat.log2 mantissa : Int) + exponent) * 30103 / 100000 - 1
  i.search (pointPosition i.value i.den 5 guess) 17 1

end CommandScript.Number
