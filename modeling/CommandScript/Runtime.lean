import CommandScript.Files
import CommandScript.Formula.Eval

/-!
What the language takes from outside. Formulas are computed by another evaluator, which may look
at all that a statement can see and answers with a value or a fault. The screen belongs to a
library, which answers requests.
-/
namespace CommandScript

inductive Platform where
  | posix
  | windows
deriving DecidableEq, Repr

def Platform.separator : Platform → Char
  | posix => '/'
  | windows => '\\'

structure Host where
  libraryPath : Option Text := none
  platform : Platform := .posix

/-- Lines to be read. An empty place among them is one end of the input; after the last line the
input is at its end for good, or the other side is gone. -/
structure Input where
  lines : List (Option Text) := []
  hangsUp : Bool := false

/-- What is asked of the screen. The first request of every command is for the library itself. -/
inductive Request where
  | load
  | start
  | stop
  | openDisplay
  | setMode (width height : Value)
  | setCaption (text : Text)
  | refresh
  | drawRectangle (color box : List Value)
  | takeEvents

structure Event where
  kind : Text
  key : Option Text := none

structure Scene where
  node : Ref .node
  scope : Ref .scope
  slack : Nat
  store : Store
  input : Input
  printed : List Text
  files : FileTree
  draws : List Float
  host : Host
  clones : List (Text × Text)
  requests : List Request

namespace Store

def addLists : List (Array Item) → Store → Store
  | [], st => st
  | items :: rest, st => addLists rest (st.newList items).2

def addRecords : List (List (Key × Item)) → Store → Store
  | [], st => st
  | entries :: rest, st => addRecords rest (st.newRecord { body := none, entries }).2

def addAll (st : Store) (lists : List (Array Item)) (records : List (List (Key × Item))) : Store :=
  (st.addLists lists).addRecords records

end Store

/-- The value of a formula, with the lists and records that were made for it. They refer only to
what is in the store or was made with them. -/
structure Answer (st : Store) where
  lists : List (Array Item)
  records : List (List (Key × Item))
  value : Item
  fits : (st.addAll lists records).HasAll
    (lists.flatMap Item.cellsOf ++ records.flatMap (·.flatMap (·.2.cells)) ++ value.cells)

def Answer.of (st : Store) (lists : List (Array Item)) (value : Item) : Except Fault (Answer st) :=
  if fits : _ then .ok { lists, records := [], value, fits } else .error .missingKey

structure Runtime where
  /-- the value of a formula in a program from the named file -/
  formula : (scene : Scene) → (file text : Text) → Except Fault (Answer scene.store)
  /-- what the screen answers to a request; the events are looked at only if they were asked for -/
  screen : Scene → Request → Except Fault (List Event)

namespace Formula

def answer (scene : Scene) (file text : Text) : Except Fault (Answer scene.store) := do
  let words := (scene.store.node scene.node).command.words
  let (v, st) ← (compute { scene with fuel := scene.slack, file, words } text).run scene.store
  Answer.of scene.store (st.lists.cells.toList.drop scene.store.lists.size) (.bare v)

end Formula

namespace Runtime

def standard : Runtime where
  formula := Formula.answer
  screen _ _ := .error .fileNotFound

instance : Inhabited Runtime := ⟨standard⟩

end Runtime

end CommandScript
