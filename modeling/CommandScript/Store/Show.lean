import CommandScript.Number.Notation
import CommandScript.Store.Graph
import CommandScript.Text.Quoted

/-!
The text of a value. Inside a list or a class a text is quoted; a list or a class that contains
itself is cut with dots where it comes round again. An element that is a variable is shown by
its content alone, and a list in such a variable without spaces.
-/
namespace CommandScript.Store

def nodeText (r : Ref .node) : Text :=
  "<alany.node.Node object at 0x7f".toList ++ Text.hexDigits 10 (64 * r.index) ++ ['>']

def boolText (b : Bool) : Text := if b then "True".toList else "False".toList

def bracket (parts : List Text) : Text := '[' :: ", ".toList.intercalate parts ++ [']']

def brace (parts : List Text) : Text := '\x7b' :: ", ".toList.intercalate parts ++ ['\x7d']

def keyText : Key → Except Fault Text
  | .text s => .ok s.quoted
  | .int n => Number.intText n

/-- Texts separated by commas alone; what is no text cannot be joined. -/
def joinTexts (parts : List (Option Text)) : Except Fault Text :=
  if parts.all Option.isSome then .ok ('[' :: ",".toList.intercalate (parts.filterMap id) ++ [']'])
  else .error .wrongKind

/-- Shows an element as it stands inside a list. `open_` are the lists, tables and records that
are being shown, and `fuel` bounds the nesting. -/
def showItem (st : Store) : Nat → List Cell → Item → Except Fault Text
  | 0, _, _ => .error .tooDeep
  | fuel + 1, open_, .bare v =>
    match v with
    | .nothing => .ok "None".toList
    | .bool b => .ok (boolText b)
    | .int n => Number.intText n
    | .float x => .ok (Number.floatText x)
    | .text s => .ok s.quoted
    | .node r => .ok (nodeText r)
    | .list r =>
      if r.cell ∈ open_ then .ok "[...]".toList
      else do return bracket (← (st.list r).toList.mapM (st.showItem fuel (r.cell :: open_)))
    | .record r =>
      if r.cell ∈ open_ then .ok (brace ["...".toList])
      else do
        let record := st.record r
        let body ← match record.body with
          | none => pure []
          | some (vars, node) =>
            let shown ← if vars.cell ∈ open_ then pure (brace ["...".toList]) else do
              let entries ← (st.table vars).mapM fun (name, held) => do
                return name.quoted ++ ": ".toList ++
                  (← st.showItem fuel (vars.cell :: r.cell :: open_) (.held held))
              pure (brace entries)
            pure ["'vars': ".toList ++ shown, "'node': ".toList ++ nodeText node]
        let entries ← record.entries.mapM fun (key, item) => do
          return (← keyText key) ++ ": ".toList ++ (← st.showItem fuel (r.cell :: open_) item)
        return brace (body ++ entries)
  | fuel + 1, open_, .held r =>
    let v := st.var r
    match v.tag, v.content with
    | .list, .list l => do
      let parts ← (st.list l).toList.mapM fun
        | .bare (.text s) => pure (some s)
        | .bare _ => pure none
        | .held inner => do return some (← st.showItem fuel open_ (.held inner))
      joinTexts parts
    | .list, .text s => joinTexts (s.map fun c => some [c])
    | .list, .record l =>
      let record := st.record l
      let body := if record.body.isSome then [some "vars".toList, some "node".toList] else []
      joinTexts (body ++ record.entries.map fun
        | (.text s, _) => some s
        | (.int _, _) => none)
    | .list, _ => .error .wrongKind
    | _, .text s => .ok s
    | _, content => st.showItem fuel open_ (.bare content)

def showValue (st : Store) (fuel : Nat) : Value → Except Fault Text
  | .text s => .ok s
  | v => st.showItem fuel [] (.bare v)

end CommandScript.Store
