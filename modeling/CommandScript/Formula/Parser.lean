import CommandScript.Formula.Token

/-!
The grammar of formulas: equality, then sums, then products, then signs; calls, indices and
members bind most tightly.
-/
namespace CommandScript

inductive Formula where
  | int (n : Int)
  | float (x : Float)
  | text (s : Text)
  | name (s : Text)
  | list (elements : List Formula)
  | call (function : Formula) (arguments : List Formula)
  | index (of : Formula) (key : Formula)
  | member (of : Formula) (name : Text)
  | minus (of : Formula)
  | plus (of : Formula)
  | binary (sign : Text) (left right : Formula)

namespace Formula

def levels : List (List Text) :=
  [["==".toList], ["+".toList, "-".toList], ["*".toList, "//".toList, "/".toList]]

def isSign (s : String) : Token → Bool
  | .sign t => t == s.toList
  | _ => false

mutual

def readLevels : Nat → List (List Text) → List Token → Option (Formula × List Token)
  | 0, _, _ => none
  | fuel + 1, [], ts => readSigned fuel ts
  | fuel + 1, level :: tighter, ts => do
    let (left, rest) ← readLevels fuel tighter ts
    readOperands fuel level tighter left rest

def readOperands :
    Nat → List Text → List (List Text) → Formula → List Token → Option (Formula × List Token)
  | 0, _, _, _, _ => none
  | fuel + 1, level, tighter, left, ts =>
    match ts with
    | .sign s :: rest =>
      if s ∈ level then do
        let (right, rest) ← readLevels fuel tighter rest
        readOperands fuel level tighter (.binary s left right) rest
      else some (left, ts)
    | _ => some (left, ts)

def readSigned : Nat → List Token → Option (Formula × List Token)
  | 0, _ => none
  | fuel + 1, ts =>
    match ts with
    | .sign ['-'] :: rest => do let (f, rest) ← readSigned fuel rest; return (.minus f, rest)
    | .sign ['+'] :: rest => do let (f, rest) ← readSigned fuel rest; return (.plus f, rest)
    | _ => do
      let (f, rest) ← readAtom fuel ts
      readTrailers fuel f rest

def readAtom : Nat → List Token → Option (Formula × List Token)
  | 0, _ => none
  | fuel + 1, ts =>
    match ts with
    | .int n :: rest => some (.int n, rest)
    | .float x :: rest => some (.float x, rest)
    | .text s :: .text t :: rest => readAtom fuel (.text (s ++ t) :: rest)
    | .text s :: rest => some (.text s, rest)
    | .name s :: rest => some (.name s, rest)
    | .sign ['('] :: rest => do
      let (f, rest) ← readLevels fuel levels rest
      match rest with
      | .sign [')'] :: rest => some (f, rest)
      | _ => none
    | .sign ['['] :: rest => do
      let (fs, rest) ← readRow fuel ']' rest
      return (.list fs, rest)
    | _ => none

def readTrailers : Nat → Formula → List Token → Option (Formula × List Token)
  | 0, _, _ => none
  | fuel + 1, f, ts =>
    match ts with
    | .sign ['('] :: rest => do
      let (fs, rest) ← readRow fuel ')' rest
      readTrailers fuel (.call f fs) rest
    | .sign ['['] :: rest => do
      let (key, rest) ← readLevels fuel levels rest
      match rest with
      | .sign [']'] :: rest => readTrailers fuel (.index f key) rest
      | _ => none
    | .sign ['.'] :: .name s :: rest => readTrailers fuel (.member f s) rest
    | _ => some (f, ts)

/-- Reads formulas between commas up to a closing sign; a last comma may stand before it. -/
def readRow : Nat → Char → List Token → Option (List Formula × List Token)
  | 0, _, _ => none
  | fuel + 1, closing, ts =>
    match ts with
    | .sign [c] :: rest =>
      if c = closing then some ([], rest) else readSome fuel closing ts
    | _ => readSome fuel closing ts

def readSome : Nat → Char → List Token → Option (List Formula × List Token)
  | 0, _, _ => none
  | fuel + 1, closing, ts => do
    let (f, rest) ← readLevels fuel levels ts
    match rest with
    | .sign [c] :: rest =>
      if c = closing then some ([f], rest)
      else if c = ',' then do
        let (fs, rest) ← readRow fuel closing rest
        return (f :: fs, rest)
      else none
    | _ => none

end

/-- The formula that a text spells, if it spells one. Between two tokens at most eight rules of the
grammar are entered. -/
def parse? (text : Text) : Option Formula := do
  let ts ← tokens text
  match ← readLevels (8 * (ts.length + 2)) levels ts with
  | (f, []) => some f
  | _ => none

end Formula

end CommandScript
