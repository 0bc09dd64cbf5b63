import CommandScript.Number.Numeral
import CommandScript.Store.Basic

/-!
Values as integers, as floats and as things that have a length; index arithmetic.
-/
namespace CommandScript

namespace Value

def toInt : Value → Except Fault Int
  | bool b => .ok (if b then 1 else 0)
  | int n => .ok n
  | float x => Number.truncate x
  | text s => match Number.readInt? s with
    | some n => .ok n
    | none => .error .badValue
  | _ => .error .wrongKind

def toFloat : Value → Except Fault Float
  | bool b => .ok (if b then 1.0 else 0.0)
  | int n => Number.ofInt n
  | float x => .ok x
  | text s => match Number.readFloat? s with
    | some x => .ok x
    | none => .error .badValue
  | _ => .error .wrongKind

end Value

def Store.length (st : Store) : Value → Except Fault Nat
  | .text s => .ok s.length
  | .list r => .ok (st.list r).size
  | .record r => .ok (st.record r).size
  | _ => .error .wrongKind

namespace Index

/-- An index beyond the end comes round to the beginning: the length is taken off until the index is
below it, which without a positive length never happens. It is taken off `limit` times at most. -/
def wrap : Nat → Int → Int → Except Fault Int
  | 0, index, length => if index < length then .ok index else .error .tooDeep
  | limit + 1, index, length =>
    if index < length then .ok index else wrap limit (index - length) length

/-- The position that an index means: negative ones count from the end. -/
def position? (index : Int) (length : Nat) : Option Nat :=
  if 0 ≤ index then (if index < length then some index.toNat else none)
  else if -length ≤ index then some (index + length).toNat
  else none

end Index

end CommandScript
