import CommandScript.Number.Numeral

/-!
The tokens of formulas: numerals, texts in quotes, names and signs.
-/
namespace CommandScript.Formula

inductive Token where
  | int (n : Int)
  | float (x : Float)
  | text (s : Text)
  | name (s : Text)
  | sign (s : Text)

def signs : List Text :=
  ["==".toList, "//".toList, "+".toList, "-".toList, "*".toList, "/".toList, "(".toList, ")".toList,
   "[".toList, "]".toList, ",".toList, ".".toList]

def startsName (c : Char) : Bool := c.isAlpha || c == '_' || 127 < c.toNat

def continuesName (c : Char) : Bool := startsName c || c.isDigit

/-- What a character after a backslash stands for; an unknown pair stands for itself. -/
def escape (c : Char) : Text :=
  match "\\'\"abfnrtv".toList.idxOf? c with
  | some i =>
    (["\\", "'", "\"", "\x07", "\x08", "\x0c", "\n", "\r", "\t", "\x0b"].map String.toList).getD i
      []
  | none => ['\\', c]

def readQuoted (quote : Char) : Text → Option (Text × Text)
  | [] => none
  | '\\' :: c :: rest => (readQuoted quote rest).map fun (s, tail) => (escape c ++ s, tail)
  | c :: rest =>
    if c = quote then some ([], rest) else (readQuoted quote rest).map fun (s, tail) =>
      (c :: s, tail)

def spanNumeral : Text → Text × Text
  | [] => ([], [])
  | c :: rest =>
    if continuesName c || c == '.' then
      let (s, tail) := spanNumeral rest
      (c :: s, tail)
    else ([], c :: rest)

def splitNumeral (text : Text) : Text × Text :=
  let (s, tail) := spanNumeral text
  match s.getLast?, tail with
  | some e, sign :: rest =>
    if (e == 'e' || e == 'E') && (sign == '+' || sign == '-') &&
      !(s.contains 'x' || s.contains 'X') then
      let (digits, tail) := spanNumeral rest
      (s ++ sign :: digits, tail)
    else (s, tail)
  | _, _ => (s, tail)

/-- The token of a numeral. An integer other than zero does not begin with a zero. -/
def numeralToken? (s : Text) : Option Token :=
  match Number.readInt? s with
  | some n => if s.head? = some '0' && n != 0 then none else some (.int n)
  | none =>
    if s.any (fun c => c == '.' || c == 'e' || c == 'E') && s.all (fun c => c.toNat < 127) then
      (Number.readFloat? s).map .float
    else none

def startsNumeral : Text → Bool
  | '.' :: c :: _ => c.isDigit
  | c :: _ => c.isDigit
  | [] => false

def nextToken? (text : Text) : Option (Token × Text) :=
  match text with
  | [] => none
  | c :: rest =>
    if c == '\'' || c == '"' then (readQuoted c rest).map fun (s, tail) => (.text s, tail)
    else if startsNumeral text then
      let (s, tail) := splitNumeral text
      (numeralToken? s).map (·, tail)
    else if startsName c then some (.name (text.takeWhile continuesName),
      text.dropWhile continuesName)
    else match signs.find? (·.isPrefixOf text) with
      | some s => some (.sign s, text.drop s.length)
      | none => none

def tokensWithin : Nat → Text → Option (List Token)
  | _, [] => some []
  | 0, _ => none
  | fuel + 1, text => do
    let (t, rest) ← nextToken? text
    return t :: (← tokensWithin fuel rest)

def tokens (text : Text) : Option (List Token) := tokensWithin text.length text

end CommandScript.Formula
