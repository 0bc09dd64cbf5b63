import CommandScript.Eval.Assign
import CommandScript.Eval.Binding
import CommandScript.Store.Clone

/-!
The value of an expression: the call of a function, a new object of a class, an element, or
whatever the text evaluates to.
-/
namespace CommandScript

/-- The arguments or parameters between commas; empty ones do not count. -/
def argumentList (text : Text) : List Text := (text.splitOn ',').filter (!·.isEmpty)

def parameters (command : Text) : Run (List Text) := do
  let inside ← Run.nth (command.compact.splitOn '(') 1
  return argumentList (Text.before ')' inside)

def runAll (ev : Evaluator) (file : Text) : List (Ref .node) → Run Outcome
  | [] => return .done
  | child :: rest => do
    match ← ev.run child file with
    | .done => runAll ev file rest
    | other => return other

def runBody (ev : Evaluator) (r : Ref .node) (file : Text) : Run Outcome := do
  runAll ev file ((← Run.getStore).node r).children

def bindArguments (ev : Evaluator) (caller callee : Ref .scope) : List (Text × Text) → Run Unit
  | [] => return
  | (argument, parameter) :: rest => do
    let v ← ev.valueOf caller argument
    declare ev callee parameter (.bare v)
    bindArguments ev caller callee rest

/-- Calls a function in an expression. Arguments and parameters are paired as far as both go, and
the body runs without a file name. -/
def callFunction (ev : Evaluator) (scope : Ref .scope) (text : Text) (r : Ref .node) :
    Run Value := do
  let node := (← Run.getStore).node r
  let names ← parameters node.command
  let arguments := (← bracketed '(' text).splitOn ','
  bindArguments ev scope node.scope (arguments.zip names)
  return (← runBody ev r []).value

def sharedName : Text := "__alany__".toList

def copyClass (ev : Evaluator) (r : Ref .record) : Run (Ref .record) := do
  let st ← Run.getStore
  if ev.slack < (st.walkFrom r.cell).deepest then throw .tooDeep
  Run.alloc (·.clone r)

/-- A new object of a class. If the outermost scope of the class has the shared variable, the new
object lives in the same outermost table, and only the rest is copied. -/
def instantiate (ev : Evaluator) (r : Ref .record) : Run Value := do
  let st ← Run.getStore
  let some (_, node) := (st.record r).body | throw .missingKey
  let globals := (st.scope (st.root (st.node node).scope)).table
  match (st.table globals).find? sharedName with
  | none => return .record (← copyClass ev r)
  | some shared =>
    Run.changeStore (·.updateTable globals (·.erase sharedName))
    let copy ← copyClass ev r
    Run.changeStore fun st =>
      let st := st.updateTable globals (Table.insert sharedName shared)
      match (st.record copy).body with
      | some (_, node) =>
        st.updateScope (st.root (st.node node).scope) fun s => { s with table := globals }
      | none => st
    return .record copy

def valueStep (ev : Evaluator) (scope : Ref .scope) (text : Text) : Run Value := do
  let st ← Run.getStore
  if text.getLast? = some ')' ∧ st.isVisible scope (text.before '(') then
    match ← readVariable (← heldItem (← lookup ev scope (text.before '('))) with
    | .node r => callFunction ev scope text r
    | .record r => instantiate ev r
    | _ => return .nothing
  else if text.getLast? = some ']' ∧ st.isVisible scope (text.before '[') then
    let target ← lookup ev scope (text.before '[')
    let index ← ev.valueOf scope (← bracketed '[' text)
    element ev (← heldItem target) index
  else evaluate ev (some scope) (.bare (.text text))

end CommandScript
