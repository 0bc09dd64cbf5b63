import CommandScript.Number.Notation
import CommandScript.Text.Blank
import CommandScript.Text.Digit

/-!
Reading numerals. An integer is a sign and digits, a float may have a point and an exponent, and
single underscores may stand between digits. Blanks around a numeral do not count, and the
digits and blanks of other scripts are as good as the plain ones.
-/
namespace CommandScript.Number

/-- The plain character that a character stands for in a numeral; a character that can be part of
no numeral becomes a question mark. -/
def plainChar (c : Char) : Char :=
  if c.toNat < 127 then c
  else if Text.isBlank c then ' '
  else match Text.digit? c with
    | some d => Nat.digitChar d
    | none => '?'

def plain (text : Text) : Text := Text.strip Text.isNarrowBlank (text.map plainChar)

def splitSign : Text → Bool × Text
  | '-' :: rest => (true, rest)
  | '+' :: rest => (false, rest)
  | text => (false, text)

/-- Whether every underscore stands between two digits. -/
def underscoresFit : (previous : Char) → Text → Bool
  | previous, [] => previous != '_'
  | previous, c :: rest =>
    (if c == '_' then previous.isDigit else previous != '_' || c.isDigit) && underscoresFit c rest

def digitsValue (digits : Text) : Nat :=
  digits.foldl (fun value c => 10 * value + (c.toNat - '0'.toNat)) 0

def readInt? (text : Text) : Option Int :=
  let (negative, body) := splitSign (plain text)
  let digits := body.filter (· != '_')
  if !digits.isEmpty && digits.all Char.isDigit && underscoresFit '_' body &&
      digits.length ≤ digitLimit then
    some (if negative then -digitsValue digits else digitsValue digits)
  else none

/-- The float nearest to `digits · 10 ^ exponent`; infinite when that is too large. -/
def ofDecimal (digits : Nat) (exponent : Int) : Float :=
  let point := (decimalDigits digits).length + exponent
  if digits = 0 ∨ point < -330 then 0.0
  else if 320 < point then infinity
  else (ofRatio? (digits * tenTo exponent.toNat) (tenTo (-exponent).toNat)).getD infinity

def readExponent? : Text → Option Int
  | [] => some 0
  | mark :: rest =>
    let (negative, digits) := splitSign rest
    if (mark == 'e' || mark == 'E') && !digits.isEmpty && digits.all Char.isDigit then
      some (if negative then -digitsValue digits else digitsValue digits)
    else none

def readDecimal? (text : Text) : Option Float :=
  let whole := text.takeWhile Char.isDigit
  let rest := text.dropWhile Char.isDigit
  let (fraction, rest) := match rest with
    | '.' :: tail => (tail.takeWhile Char.isDigit, tail.dropWhile Char.isDigit)
    | _ => ([], rest)
  if whole.isEmpty && fraction.isEmpty then none
  else (readExponent? rest).map fun exponent =>
    ofDecimal (digitsValue (whole ++ fraction)) (exponent - fraction.length)

def readFloat? (text : Text) : Option Float :=
  let body := plain text
  if !body.contains '_' || underscoresFit ' ' body then
    let (negative, size) := splitSign (body.filter (· != '_'))
    let name := size.map Char.toLower
    if name = "inf".toList ∨ name = "infinity".toList then some (withSign negative infinity)
    else if name = "nan".toList then some notANumber
    else (readDecimal? size).map (withSign negative)
  else none

example : readInt? " -1_000\n".toList = some (-1000) := by decide +kernel
example : readInt? "1__0".toList = none ∧ readInt? "_1".toList = none := by decide +kernel

end CommandScript.Number
