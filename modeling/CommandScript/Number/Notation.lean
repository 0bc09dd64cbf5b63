import CommandScript.Number.Shortest
import CommandScript.Text.Basic

/-!
How numbers are written. A float has the fewest digits that read back, and always a point or an
exponent; an integer is written out in full, up to a limit.
-/
namespace CommandScript.Number

structure FloatFormat where
  leastPoint : Int
  mostPoint : Int
  exponentWidth : Nat

/-- Numbers below `10 ^ -4` and from `10 ^ 16` on have an exponent, of two digits at least. -/
def FloatFormat.standard : FloatFormat := ⟨-3, 16, 2⟩

def decimalDigits (n : Nat) : Text := Nat.toDigits 10 n

def dropTrailingZeros (digits : Text) : Text := (digits.reverse.dropWhile (· == '0')).reverse

def positional (digits : Text) (point : Int) : Text :=
  if point ≤ 0 then "0.".toList ++ List.replicate (-point).toNat '0' ++ digits
  else if digits.length ≤ point then
    digits ++ List.replicate (point.toNat - digits.length) '0' ++ ".0".toList
  else digits.take point.toNat ++ '.' :: digits.drop point.toNat

def scientific (format : FloatFormat) (digits : Text) (point : Int) : Text :=
  let tail := digits.drop 1
  let exponent := point - 1
  let size := decimalDigits exponent.natAbs
  digits.take 1 ++ (if tail.isEmpty then [] else '.' :: tail) ++
    ['e', if exponent < 0 then '-' else '+'] ++
    List.replicate (format.exponentWidth - size.length) '0' ++ size

def FloatFormat.write (format : FloatFormat) (d : Decimal) : Text :=
  let all := decimalDigits d.digits
  let point := all.length + d.exponent
  let digits := dropTrailingZeros all
  if format.leastPoint ≤ point ∧ point ≤ format.mostPoint then positional digits point
  else scientific format digits point

def floatText (x : Float) : Text :=
  match parts x with
  | .notANumber => "nan".toList
  | .infinite negative => if negative then "-inf".toList else "inf".toList
  | .finite negative mantissa exponent =>
    let size := if mantissa = 0 then "0.0".toList
      else FloatFormat.standard.write (shortest mantissa exponent)
    if negative then '-' :: size else size

def digitLimit : Nat := 4300

def intText (n : Int) : Except Fault Text :=
  if tenTo digitLimit ≤ n.natAbs then .error .badValue
  else .ok (if n < 0 then '-' :: decimalDigits n.natAbs else decimalDigits n.natAbs)

end CommandScript.Number
