import CommandScript.Number.Binary

/-!
Arithmetic and comparison of integers of any size and floats. Integers stay exact among
themselves; next to a float an integer counts as the float nearest to it, except that
comparisons are exact.
-/
namespace CommandScript

inductive Number where
  | int (n : Int)
  | float (x : Float)

namespace Number

def toFloat : Number → Except Fault Float
  | int n => ofInt n
  | float x => .ok x

def combine (onInts : Int → Int → Except Fault Number)
    (onFloats : Float → Float → Except Fault Number) :
    Number → Number → Except Fault Number
  | int a, int b => onInts a b
  | a, b => do onFloats (← a.toFloat) (← b.toFloat)

def add : Number → Number → Except Fault Number :=
  combine (fun a b => .ok (int (a + b))) (fun x y => .ok (float (x + y)))

def sub : Number → Number → Except Fault Number :=
  combine (fun a b => .ok (int (a - b))) (fun x y => .ok (float (x - y)))

def mul : Number → Number → Except Fault Number :=
  combine (fun a b => .ok (int (a * b))) (fun x y => .ok (float (x * y)))

def div : Number → Number → Except Fault Number :=
  combine (fun a b => do return float (← divideInts a b))
    (fun x y => if y == 0.0 then .error .zeroDivision else .ok (float (x / y)))

/-- The remainder of two finite floats that has the sign of the first, which is exact. -/
def remainderParts (x : Bool × Nat × Int) (y : Nat × Int) : Float :=
  let (negative, m, e) := x
  let (n, f) := y
  let least := min e f
  let rest := (m * twoTo (e - least).toNat) % (n * twoTo (f - least).toNat)
  let size := ofRatio? (rest * twoTo least.toNat) (twoTo (-least).toNat)
  withSign negative (size.getD infinity)

def truncatedRemainder (x y : Float) : Float :=
  match parts x, parts y with
  | .finite negative m e, .finite _ n f =>
    if n = 0 then notANumber else remainderParts (negative, m, e) (n, f)
  | .finite .., .infinite _ => x
  | _, _ => notANumber

/-- The remainder that has the sign of the divisor. -/
def floatMod (x y : Float) : Except Fault Float :=
  if y == 0.0 then .error .zeroDivision else
    let rest := truncatedRemainder x y
    if rest == 0.0 then .ok (withSign (isNegative y) 0.0)
    else if (y < 0.0) != (rest < 0.0) then .ok (rest + y) else .ok rest

def mod : Number → Number → Except Fault Number :=
  combine (fun a b => if b = 0 then .error .zeroDivision else .ok (int (Int.fmod a b)))
    (fun x y => do return float (← floatMod x y))

def floatFloorDiv (x y : Float) : Except Fault Float :=
  if y == 0.0 then .error .zeroDivision else
    let rest := truncatedRemainder x y
    let quotient := (x - rest) / y
    let quotient := if rest != 0.0 && (y < 0.0) != (rest < 0.0) then quotient - 1.0 else quotient
    if quotient == 0.0 then .ok (withSign (isNegative (x / y)) 0.0)
    else
      let down := quotient.floor
      .ok (if 0.5 < quotient - down then down + 1.0 else down)

def floorDiv : Number → Number → Except Fault Number :=
  combine (fun a b => if b = 0 then .error .zeroDivision else .ok (int (Int.fdiv a b)))
    (fun x y => do return float (← floatFloorDiv x y))

/-- How two numbers compare, exactly; nothing compares with what is not a number. -/
def compare? : Number → Number → Option Ordering
  | int a, int b => some (compare a b)
  | float x, float y =>
    if x < y then some .lt else if x == y then some .eq else if y < x then some .gt else none
  | int a, float y => against a y
  | float x, int b => (against b x).map Ordering.swap
where
  against (n : Int) (x : Float) : Option Ordering :=
    match parts x with
    | .notANumber => none
    | .infinite negative => some (if negative then .gt else .lt)
    | .finite negative mantissa exponent => some (compareParts n negative mantissa exponent)

/-- Whether a number differs from zero; what is not a number does. -/
def isNonzero : Number → Bool
  | int n => n != 0
  | float x => x != 0.0

def toChar (n : Int) : Except Fault Char :=
  if n < -2147483648 ∨ 2147483647 < n then .error .overflow
  else if n < 0 ∨ 0x10FFFF < n then .error .badValue
  else .ok (Char.ofNat n.toNat)

end Number

end CommandScript
