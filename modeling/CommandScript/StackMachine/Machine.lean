import CommandScript.Eval.Convert
import CommandScript.Number.Notation
import CommandScript.StackMachine.Instr
import CommandScript.World

/-!
The stack machine: a stack, a memory of named values, functions by their position, and the
position of the next command. While a function is being defined its commands are passed over;
while one is being run, its end leads back to the main code.
-/
namespace CommandScript.StackMachine

/-- A value on the stack: lines and constants are texts, results are numbers. -/
inductive Operand where
  | text (s : Text)
  | int (n : Int)
  | float (x : Float)

namespace Operand

def value : Operand → Value
  | text s => .text s
  | int n => .int n
  | float x => .float x

def toInt (o : Operand) : Except Fault Int := o.value.toInt

def shown : Operand → Except Fault Text
  | text s => .ok s
  | int n => Number.intText n
  | float x => .ok (Number.floatText x)

end Operand

def Operation.apply (a b : Int) : Operation → Except Fault Operand
  | .sum => .ok (.int (a + b))
  | .dif => .ok (.int (a - b))
  | .mul => .ok (.int (a * b))
  | .div => do return .float (← Number.divideInts a b)

inductive Mode where
  | main
  | defining
  | calling
deriving DecidableEq, Repr

structure Machine where
  index : Int := 0
  mode : Mode := .main
  /-- the position of the last command of the main code that was carried out -/
  mainIndex : Int := 0
  /-- the top of the stack comes first -/
  stack : List Operand := []
  memory : List (Text × Operand) := []
  functions : List (Text × Int) := []
  input : Input := {}
  /-- what was printed, the last piece first -/
  printed : List Text := []

def setName {α : Type} (name : Text) (a : α) : List (Text × α) → List (Text × α)
  | [] => [(name, a)]
  | (n, old) :: rest => if n = name then (name, a) :: rest else (n, old) :: setName name a rest

namespace Machine

def output (m : Machine) : Text := m.printed.reverse.flatten

def pop (m : Machine) : Except Fault (Operand × Machine) :=
  match m.stack with
  | top :: rest => .ok (top, { m with stack := rest })
  | [] => .error .emptyStack

def push (m : Machine) (o : Operand) : Machine := { m with stack := o :: m.stack }

def print (m : Machine) (text : Text) : Machine := { m with printed := text :: m.printed }

def popInt (m : Machine) : Except Fault (Int × Machine) := do
  let (o, m) ← m.pop
  return (← o.toInt, m)

def popText (m : Machine) : Except Fault (Text × Machine) := do
  let (o, m) ← m.pop
  return (← o.shown, m)

def needed (word : Option Text) : Except Fault Text :=
  match word with
  | some w => .ok w
  | none => .error .badIndex

/-- Sends the machine to a position, counted from one; the step after this one adds one. -/
def goTo (m : Machine) (target : Option Text) : Except Fault Machine := do
  return { m with index := (← (Operand.text (← needed target)).toInt) - 2 }

def decideTest (m : Machine) : Test → Except Fault (Bool × Machine)
  | .equal => do
    let (a, m) ← m.popText
    let (b, m) ← m.popText
    return (a = b, m)
  | .less => do
    let (a, m) ← m.popInt
    let (b, m) ← m.popInt
    return (a < b, m)
  | .larger => do
    let (a, m) ← m.popInt
    let (b, m) ← m.popInt
    return (b < a, m)

def readLine (m : Machine) : Except Fault (Text × Machine) :=
  match m.input.lines with
  | some line :: rest => .ok (line, { m with input := { m.input with lines := rest } })
  | _ => .error .endOfInput

def carryOut (m : Machine) : Instr → Except Fault Machine
  | .push s => .ok (m.push (.text s))
  | .compute op => do
    let (a, m) ← m.popInt
    let (b, m) ← m.popInt
    return m.push (← Operation.apply a b op)
  | .duplicate => do
    let (a, m) ← m.pop
    return (m.push a).push a
  | .reverse => .ok { m with stack := m.stack.reverse }
  | .clear => .ok { m with stack := [] }
  | .swap => do
    let (a, m) ← m.pop
    let (b, m) ← m.pop
    return (m.push a).push b
  | .stackOther hasWord => if hasWord then .ok m else .error .badIndex
  | .out => do
    let (s, m) ← m.popText
    return m.print s
  | .putchar => do
    let (n, m) ← m.popInt
    return m.print [← Number.toChar n]
  | .readLine => do
    let (line, m) ← m.readLine
    return m.push (.text line)
  | .save name => do
    let (a, m) ← m.pop
    return { m with memory := setName (← needed name) a m.memory }
  | .load name => do
    match m.memory.lookup (← needed name) with
    | some a => return m.push a
    | none => return m
  | .memoryOther hasWord => if hasWord then .ok m else .error .badIndex
  | .jump target => m.goTo target
  | .jumpIf test target => do
    let (holds, m) ← m.decideTest test
    if holds then m.goTo target else return m
  | .endFunction => .ok { m with mode := .main }
  | .call name => do
    match m.functions.lookup (← needed name) with
    | some start => return { m with index := start, mode := .calling }
    | none => .error .missingKey
  | .function name => do
    return { m with functions := setName (← needed name) m.index m.functions, mode := .defining }
  | .skip => .ok m

/-- Carries out a command; while a function is being defined only its end counts. -/
def obey (m : Machine) (i : Instr) : Except Fault Machine :=
  match m.mode, i with
  | .defining, .endFunction => .ok { m with mode := .main }
  | .defining, _ => .ok m
  | _, i => m.carryOut i

/-- The command at a position; negative ones count from the end. -/
def fetch (code : List Instr) (index : Int) : Except Fault Instr :=
  match (Index.position? index code.length).bind (code[·]?) with
  | some i => .ok i
  | none => .error .badIndex

def perform (code : List Instr) (m : Machine) : Except Fault Machine := do
  let m := if m.mode = .main then { m with mainIndex := m.index } else m
  m.obey (← fetch code m.index)

/-- Goes on to the next command. At the end of a function that is the one after the last command of
the main code. -/
def advance (before after : Machine) : Machine :=
  if before.mode = .calling ∧ after.mode = .main then { after with index := after.mainIndex + 1 }
  else { after with index := after.index + 1 }

def step (code : List Instr) (m : Machine) : Except Fault Machine := do
  return m.advance (← m.perform code)

def isDone (code : List Instr) (m : Machine) : Bool := code.length ≤ m.index

def run (code : List Instr) : Nat → Machine → Except Fault Unit × Machine
  | 0, m => if m.isDone code then (.ok (), m) else (.error .unfinished, m)
  | n + 1, m =>
    if m.isDone code then (.ok (), m)
    else match m.step code with
      | .ok next => run code n next
      | .error e => (.error e, m)

def trace (code : List Instr) : Nat → Machine → List (Int × Machine)
  | 0, _ => []
  | n + 1, m =>
    if m.isDone code then []
    else match m.perform code with
      | .ok after => (m.index, after) :: trace code n (m.advance after)
      | .error _ => []

end Machine

end CommandScript.StackMachine
