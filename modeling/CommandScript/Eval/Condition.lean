import CommandScript.Eval.Lookup
import CommandScript.Store.Compare

/-!
Conditions: two expressions with a comparison between them, or the name of a variable.
-/
namespace CommandScript

inductive Comparison where
  | equal
  | unequal
  | greater
  | less
deriving DecidableEq, Repr

namespace Comparison

def sign : Comparison → Text
  | equal => "==".toList
  | unequal => "!=".toList
  | greater => ">".toList
  | less => "<".toList

def find? (condition : Text) : Option Comparison :=
  [equal, unequal, greater, less].find? fun c => Text.hasPart c.sign condition

def holds (st : Store) (fuel : Nat) (a b : Value) : Comparison → Except Fault Bool
  | equal => st.sameItem fuel (.bare a) (.bare b)
  | unequal => do return !(← st.sameItem fuel (.bare a) (.bare b))
  | greater => st.lessItem fuel (.bare b) (.bare a)
  | less => st.lessItem fuel (.bare a) (.bare b)

/-- The operands of a comparison: the first two pieces when every sign is read as a space. -/
def operands (c : Comparison) (condition : Text) : List Text :=
  (Text.replace c.sign [' '] condition).words

end Comparison

/-- The value of a condition. Without a comparison it is the value of the variable of that name,
or nothing. -/
def condition (ev : Evaluator) (scope : Ref .scope) (text : Text) : Run Value := do
  match Comparison.find? text with
  | some c =>
    let parts := c.operands text
    let a ← ev.valueOf scope (← Run.nth parts 0)
    let b ← ev.valueOf scope (← Run.nth parts 1)
    return .bool (← Run.ofExcept (c.holds (← Run.getStore) ev.slack a b))
  | none =>
    if (← Run.getStore).isVisible scope text then
      readVariable (← heldItem (← lookup ev scope text))
    else return .nothing

end CommandScript
