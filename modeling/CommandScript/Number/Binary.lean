import CommandScript.Fault

/-!
Binary floating point numbers taken apart, and the float nearest to an exact ratio.
-/
namespace CommandScript.Number

def twoTo (n : Nat) : Nat := Nat.pow 2 n

def tenTo (n : Nat) : Nat := Nat.pow 10 n

/-- A float taken apart: a finite one is its mantissa times a power of two, with a sign. -/
inductive Parts where
  | notANumber
  | infinite (negative : Bool)
  | finite (negative : Bool) (mantissa : Nat) (exponent : Int)
deriving DecidableEq, Repr

def parts (x : Float) : Parts :=
  let bits : Nat := x.toBits.toNat
  let negative : Bool := twoTo 63 ≤ bits
  let field : Nat := bits / twoTo 52 % twoTo 11
  let fraction : Nat := bits % twoTo 52
  if field = 2047 then if fraction = 0 then .infinite negative else .notANumber
  else if field = 0 then .finite negative fraction (-1074)
  else .finite negative (twoTo 52 + fraction) (field - 1075)

def isNegative (x : Float) : Bool := twoTo 63 ≤ x.toBits.toNat

def withSign (negative : Bool) (x : Float) : Float := if negative then -x else x

def infinity : Float := Float.ofBits 0x7FF0000000000000

def notANumber : Float := Float.ofBits 0x7FF8000000000000

/-- The whole number nearest to a ratio; a half goes to the even neighbour. -/
def roundRatio (num den : Nat) : Nat :=
  let quotient := num / den
  let twice := 2 * (num % den)
  if twice < den then quotient
  else if den < twice then quotient + 1
  else if quotient % 2 = 0 then quotient else quotient + 1

def scaleDown (num den : Nat) (exponent : Int) : Nat × Nat :=
  if 0 ≤ exponent then (num, den * twoTo exponent.toNat) else (num * twoTo (-exponent).toNat, den)

def lastBit (num den : Nat) : Int :=
  let guess : Int := Nat.log2 num - Nat.log2 den - 52
  let (a, b) := scaleDown num den guess
  max (if a < b * twoTo 52 then guess - 1 else guess) (-1074)

/-- The float nearest to a ratio of natural numbers, or nothing where that is beyond the largest
one. The denominator is positive. -/
def ofRatio? (num den : Nat) : Option Float :=
  if num = 0 then some 0.0 else
    let exponent := lastBit num den
    let (a, b) := scaleDown num den exponent
    let bits := (exponent + 1074).toNat * twoTo 52 + roundRatio a b
    if 2047 * twoTo 52 ≤ bits then none else some (Float.ofBits (UInt64.ofNat bits))

def ofInt (n : Int) : Except Fault Float :=
  match ofRatio? n.natAbs 1 with
  | some x => .ok (withSign (n < 0) x)
  | none => .error .overflow

def divideInts (a b : Int) : Except Fault Float :=
  if b = 0 then .error .zeroDivision
  else match ofRatio? a.natAbs b.natAbs with
    | some x => .ok (withSign ((a < 0) != (b < 0)) x)
    | none => .error .overflow

def truncate (x : Float) : Except Fault Int :=
  match parts x with
  | .notANumber => .error .badValue
  | .infinite _ => .error .overflow
  | .finite negative mantissa exponent =>
    let size := if 0 ≤ exponent then mantissa * twoTo exponent.toNat
      else mantissa / twoTo (-exponent).toNat
    .ok (if negative then -size else size)

def compareParts (n : Int) (negative : Bool) (mantissa : Nat) (exponent : Int) : Ordering :=
  let size : Int := if negative then -mantissa else mantissa
  if 0 ≤ exponent then compare n (size * twoTo exponent.toNat)
  else compare (n * twoTo (-exponent).toNat) size

end CommandScript.Number
