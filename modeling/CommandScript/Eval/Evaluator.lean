import CommandScript.Store.Scope
import CommandScript.World

/-!
The evaluator's three questions: what variable a value makes, what an expression means, and what
a statement does. They call each other without end, so each level of nesting is answered by an
evaluator that has one level less to give.
-/
namespace CommandScript

inductive Outcome where
  /-- an error was reported; the program is to stop -/
  | failed
  /-- the end was reached -/
  | done
  /-- the block was left early, with a value -/
  | stopped (value : Value)

namespace Outcome

def status : Outcome → Int
  | failed => 0
  | done => 1
  | stopped _ => 2

def value : Outcome → Value
  | stopped v => v
  | _ => .nothing

/-- Whether a status means success: one and two do, as numbers. -/
def succeeds (status : Value) : Bool :=
  match status.number? with
  | some n => Number.compare? n (.int 1) == some .eq || Number.compare? n (.int 2) == some .eq
  | none => false

def isSuccess (o : Outcome) : Bool := succeeds (.int o.status)

end Outcome

structure Limits where
  nesting : Nat
  rounds : Nat

def Limits.standard : Limits := ⟨500, 1000000000000⟩

structure Evaluator where
  /-- how many levels of nesting are left -/
  room : Nat
  /-- how often a loop may go round -/
  rounds : Nat
  /-- the variable that a value makes in a scope, under a name; with the flag, a name that means
  nothing makes an empty variable instead of a fault -/
  bind : Option (Ref .scope) → Text → Bool → Value → Run Variable
  /-- the value of an expression in a scope -/
  valueOf : Ref .scope → Text → Run Value
  /-- what a statement does, in a program from the named file -/
  run : Ref .node → Text → Run Outcome

namespace Evaluator

def exhausted (rounds : Nat) : Evaluator where
  room := 0
  rounds
  bind _ _ _ _ := throw .tooDeep
  valueOf _ _ := throw .tooDeep
  run _ _ := throw .tooDeep

/-- The nesting that texts, comparisons and repeated subtraction may use. -/
def slack (ev : Evaluator) : Nat := 2 * ev.room

end Evaluator

def nameless : Text := "None".toList

def Variable.read (x : Variable) : Run Value := Run.ofExcept x.reading

def readVariable (r : Ref .variable) : Run Value := do ((← Run.getStore).var r).read

def readItem : Item → Run Value
  | .bare v => pure v
  | .held r => readVariable r

def heldItem : Item → Run (Ref .variable)
  | .held r => pure r
  | .bare _ => throw .missingPart

end CommandScript
