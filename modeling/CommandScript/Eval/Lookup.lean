import CommandScript.Eval.Literal

/-!
Names in use: finding what a name with points means, declaring a name, and updating the content
of a variable where it is bound.
-/
namespace CommandScript

/-- Follows a name and the member names after it. A name that is bound nowhere is evaluated as a
literal in the outermost scope, whatever members were asked for. -/
def lookupFrom (ev : Evaluator) (scope : Ref .scope) (name : Text) : List Text → Run Item
  | [] => do
    let st ← Run.getStore
    match st.resolve scope name with
    | some (_, r) => return .held r
    | none => return .bare (← evaluate ev (some (st.root scope)) (.bare (.text name)))
  | member :: rest => do
    let st ← Run.getStore
    match st.resolve scope name with
    | some (_, r) =>
      match (st.var r).members with
      | some members => lookupFrom ev members member rest
      | none => throw .missingPart
    | none => return .bare (← evaluate ev (some (st.root scope)) (.bare (.text name)))

def lookup (ev : Evaluator) (scope : Ref .scope) (name : Text) : Run Item :=
  match name.splitOn '.' with
  | first :: rest => lookupFrom ev scope first rest
  | [] => throw .badIndex

def declareFrom (ev : Evaluator) (scope : Ref .scope) (name : Text) (item : Item) :
    List Text → Run Unit
  | [] => do
    let v ← evaluate ev (some scope) item
    let x ← ev.bind (some scope) name false v
    Run.changeStore (·.bindName scope name x)
  | member :: rest => do
    let r ← heldItem (← lookupFrom ev scope name [])
    match ((← Run.getStore).var r).members with
    | some members => declareFrom ev members member item rest
    | none => throw .missingPart

def declare (ev : Evaluator) (scope : Ref .scope) (name : Text) (item : Item) : Run Unit :=
  match name.splitOn '.' with
  | first :: rest => declareFrom ev scope first item rest
  | [] => throw .badIndex

def declareGlobal (ev : Evaluator) (scope : Ref .scope) (name : Text) (item : Item) : Run Unit := do
  declare ev ((← Run.getStore).globalOf scope) name item

/-- Changes the content of the nearest variable of a name to the value of what `source` gives. The
source is asked only if there is such a variable. -/
def update (ev : Evaluator) (scope : Ref .scope) (name : Option Text) (source : Run Item) :
    Run Unit := do
  let some name := name | return
  match (← Run.getStore).resolve scope name with
  | none => return
  | some (owner, _) =>
    let v ← evaluate ev (some owner) (← source)
    Run.changeStore fun st =>
      match (st.tableOf owner).find? name with
      | some r => st.updateVariable r fun x => { x with content := v }
      | none => st

end CommandScript
