import CommandScript.Eval.Convert
import CommandScript.Eval.Lookup

/-!
Elements of lists, characters of texts and entries of classes, by index.
-/
namespace CommandScript

def elementAt (st : Store) (i : Int) : Value → Except Fault Item
  | .text s =>
    match (Index.position? i s.length).bind (s[·]?) with
    | some c => .ok (.bare (.text [c]))
    | none => .error .badIndex
  | .list r =>
    match (Index.position? i (st.list r).size).bind ((st.list r)[·]?) with
    | some item => .ok item
    | none => .error .badIndex
  | .record r =>
    match (st.record r).find? (.int i) with
    | some item => .ok item
    | none => .error .missingKey
  | _ => .error .wrongKind

def element (ev : Evaluator) (r : Ref .variable) (index : Value) : Run Value := do
  let v ← readVariable r
  let i ← Run.ofExcept index.toInt
  let st ← Run.getStore
  let i ← Run.ofExcept (Index.wrap ev.slack i (← Run.ofExcept (st.length v)))
  readItem (← Run.ofExcept (elementAt st i v))

/-- Writes an element of a value. The index does not come round. -/
def putElement (v : Value) (i : Int) (item : Item) : Run Unit := do
  match v with
  | .list l =>
    match Index.position? i ((← Run.getStore).list l).size with
    | some p => Run.changeStore (·.updateList l (·.setIfInBounds p item))
    | none => throw .badIndex
  | .record l => Run.changeStore (·.updateRecord l (·.put (.int i) item))
  | _ => throw .wrongKind

/-- Writes the element of a variable's value at an index, and evaluates the whole anew in the
nearest variable of that name. -/
def setElement (ev : Evaluator) (r : Ref .variable) (index : Value) (item : Item) : Run Unit := do
  let v ← readVariable r
  putElement v (← Run.ofExcept index.toInt) item
  let x := (← Run.getStore).var r
  match x.home with
  | some scope => update ev scope x.name (pure (.bare x.content))
  | none => return

end CommandScript
