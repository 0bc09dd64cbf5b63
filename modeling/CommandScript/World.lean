import CommandScript.Runtime

/-!
The world in which programs run: the store, the lines to be read, what was printed, the files,
the numbers that chance will give, the settings of the host, what was asked of the outside, and
what the outside answers. A run is a function on worlds; a fault ends it, but what it had done
before stays done.
-/
namespace CommandScript

structure World where
  store : Store := {}
  input : Input := {}
  /-- what was printed, the last piece first -/
  printed : List Text := []
  files : FileTree := {}
  draws : List Float := []
  host : Host := {}
  /-- the repositories that were asked for, each with its destination, the last one first -/
  clones : List (Text × Text) := []
  /-- what was asked of the screen, the last request first -/
  requests : List Request := []
  runtime : Runtime := .standard

def World.scene (w : World) (node : Ref .node) (scope : Ref .scope) (slack : Nat) : Scene :=
  { w with node, scope, slack }

def World.output (w : World) : Text := w.printed.reverse.flatten

/-- A run gives a result or a fault, and changes the world either way. -/
abbrev Run := ExceptT Fault (StateM World)

namespace Run

def exec {α : Type} (x : Run α) (w : World) : Except Fault α × World := (ExceptT.run x).run w

def getStore : Run Store := do return (← get).store

def changeStore (f : Store → Store) : Run Unit := modify fun w => { w with store := f w.store }

def alloc {k : Kind} (f : Store → Ref k × Store) : Run (Ref k) := do
  let (r, store) := f (← getStore)
  modify fun w => { w with store }
  return r

def ofExcept {α : Type} : Except Fault α → Run α
  | .ok a => pure a
  | .error e => throw e

def print (text : Text) : Run Unit := modify fun w => { w with printed := text :: w.printed }

def printLine (text : Text) : Run Unit := print (text ++ ['\n'])

def readLine : Run Text := do
  let w ← get
  match w.input.lines with
  | some line :: rest =>
    set { w with input := { w.input with lines := rest } }
    return line
  | none :: rest =>
    set { w with input := { w.input with lines := rest } }
    throw .endOfInput
  | [] => throw (if w.input.hangsUp then .hangUp else .endOfInput)

/-- The next number from chance; a half when none are left. -/
def draw : Run Float := do
  let w ← get
  match w.draws with
  | x :: rest =>
    set { w with draws := rest }
    return x
  | [] => return 0.5

def readFile (name : Text) : Run Text := do ofExcept ((← get).files.read name)

def changeFiles (f : FileTree → Except Fault FileTree) : Run Unit := do
  let files ← ofExcept (f (← get).files)
  modify fun w => { w with files }

def writeFile (name content : Text) : Run Unit := changeFiles (·.write name content)

def nth {α : Type} (xs : List α) (i : Nat) : Run α :=
  match xs[i]? with
  | some x => pure x
  | none => throw .badIndex

end Run

end CommandScript
