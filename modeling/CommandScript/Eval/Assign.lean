import CommandScript.Eval.Element

/-!
Assignment: to a variable that is there, to an element of a list, or to a new name.
-/
namespace CommandScript

/-- Gives a variable a new value, and the nearest variable of its name with it. The tag stays. -/
def assignVariable (ev : Evaluator) (r : Ref .variable) (item : Item) : Run Unit := do
  let v ← readItem item
  Run.changeStore (·.updateVariable r fun x => { x with content := v })
  let x := (← Run.getStore).var r
  match x.home with
  | some scope =>
    let y ← ev.bind (some scope) nameless false v
    update ev scope x.name (do return .bare (← y.read))
  | none => return

def bracketed (opening : Char) (text : Text) : Run Text := do
  return (← Run.nth (text.splitOn opening) 1).dropLast

/-- Assigns a value to a name. A name that is bound nowhere is declared: in the scope itself, or
globally. -/
def assign (ev : Evaluator) (scope : Ref .scope) (isGlobal : Bool) (name : Text) (item : Item) :
    Run Unit := do
  let item := Item.bare (← readItem item)
  if (← Run.getStore).isVisible scope name then
    match ← lookup ev scope name with
    | .held r => assignVariable ev r item
    | .bare .nothing => declare ev scope name item
    | .bare (.node _) => return
    | .bare _ => throw .missingPart
  else match name.getLast? with
    | none => throw .badIndex
    | some ']' =>
      let target ← lookup ev scope (name.before '[')
      let index ← ev.valueOf scope (← bracketed '[' name)
      setElement ev (← heldItem target) index item
    | some _ => if isGlobal then declareGlobal ev scope name item else declare ev scope name item

end CommandScript
