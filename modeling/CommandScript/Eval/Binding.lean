import CommandScript.Eval.Condition
import CommandScript.Eval.Convert
import CommandScript.Notice

/-!
The variable that a value makes. A text in quotes is a text; otherwise it is a numeral, a
condition or a name, in this order. The bare elements of a list become variables in place.
-/
namespace CommandScript

/-- The variable for a name that is to be looked up: a copy of what the name means. -/
def bindName (ev : Evaluator) (home : Option (Ref .scope)) (lenient : Bool) (name : Option Text) :
    Run Variable := do
  let some scope := home | throw .missingPart
  let st ← Run.getStore
  match name with
  | some n =>
    if st.isVisible scope n then
      let r ← heldItem (← lookup ev scope n)
      let x := (← Run.getStore).var r
      return { name := x.name, home, content := x.content, tag := x.tag }
    else unknown st
  | none => unknown st
where
  unknown (st : Store) : Run Variable := do
    if lenient then return { name, home, content := .nothing, tag := .unknown }
    else
      Run.printLine (← Run.ofExcept (Notice.unknownType st ev.slack (match name with
        | some n => .text n
        | none => .nothing)))
      throw .badValue

def settleAt (ev : Evaluator) (home : Option (Ref .scope)) (r : Ref .list) (i : Nat) :
    Run Unit := do
  match ((← Run.getStore).list r)[i]? with
  | some (.bare v) =>
    let x ← ev.bind home nameless false v
    let cell ← Run.alloc (·.newVariable x)
    Run.changeStore (·.updateList r (·.setIfInBounds i (.held cell)))
  | _ => return

def settle (ev : Evaluator) (home : Option (Ref .scope)) (r : Ref .list) : Run Unit := do
  (List.range ((← Run.getStore).list r).size).forM (settleAt ev home r)

def isCondition (s : Text) : Bool := s.contains '=' || s.contains '>' || s.contains '<'

def bindText (ev : Evaluator) (home : Option (Ref .scope)) (name : Text) (lenient : Bool)
    (s : Text) : Run Variable := do
  if Spelled.isQuoted
    s then return { name := some name, home, content := .text (Spelled.inner s), tag := .text }
  else if let some n :=
    Number.readInt? s then return { name := some name, home, content := .int n, tag := .int }
  else if let some x := Number.readFloat? s then
    return { name := some name, home, content := .float x, tag := .float }
  else if isCondition s then
    let some scope := home | throw .missingPart
    let v ← condition ev scope s
    return { name := some name, home, content := v, tag := .truth }
  else bindName ev home lenient (some (Spelled.trimSpaces s))

/-- The text that a list with quote characters at both ends comes to: what stands between them, as
a list is shown. -/
def quotedListText? (st : Store) (fuel : Nat) (items : List Item) : Option Text :=
  if Spelled.isQuoted items then
    match (Spelled.inner items).mapM (st.showItem fuel []) with
    | .ok parts => some (Store.bracket parts)
    | .error _ => none
  else none

def bindStep (ev : Evaluator) (home : Option (Ref .scope)) (name : Text) (lenient : Bool)
    (v : Value) : Run Variable := do
  match v with
  | .nothing => bindName ev home lenient none
  | .bool b => return { name := some name, home, content := .int (if b then 1 else 0), tag := .int }
  | .int n => return { name := some name, home, content := .int n, tag := .int }
  | .float x => return { name := some name, home, content := .float x, tag := .float }
  | .text s => bindText ev home name lenient s
  | .node _ => return { name := some name, home, content := v, tag := .function }
  | .record r =>
    let st ← Run.getStore
    let members := (st.record r).body.map fun (_, node) => (st.node node).scope
    return { name := some name, home, content := v, tag := .object, members }
  | .list r =>
    let st ← Run.getStore
    match quotedListText? st ev.slack (st.list r).toList with
    | some s => return { name := some name, home, content := .text s, tag := .text }
    | none =>
      settle ev home r
      return { name := some name, home, content := v, tag := .list }

end CommandScript
