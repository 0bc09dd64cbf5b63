import CommandScript.Eval.Convert
import CommandScript.Store.Compare
import CommandScript.World

/-!
Texts and lists treated alike: quote characters and spaces at their ends. A list that loses
elements is a new list; one that loses none is the same list.
-/
namespace CommandScript.Sequence

def shorten (onText : Text → Text) (onList : List Item → List Item) (v : Value) : Run Value := do
  match v with
  | .text s => return .text (onText s)
  | .list r =>
    let items := ((← Run.getStore).list r).toList
    let rest := onList items
    if rest.length = items.length then return v
    else return .list (← Run.alloc (·.newList rest.toArray))
  | _ => return v

def isQuoted (st : Store) : Value → Bool
  | .text s => Spelled.isQuoted s
  | .list r => Spelled.isQuoted (st.list r).toList
  | _ => false

def dropQuotes : Value → Run Value := shorten Spelled.dropQuotes Spelled.dropQuotes

def trimSpaces : Value → Run Value := shorten Spelled.trimSpaces Spelled.trimSpaces

/-- Drops the spaces at the front, up to a limit. Numbers other than zero have no front. -/
def dropSpaces (limit : Nat) (v : Value) : Run Value := do
  let st ← Run.getStore
  let spaces := match v with
    | .text s => Spelled.leadingSpaces s
    | .list r => Spelled.leadingSpaces (st.list r).toList
    | _ => 0
  if limit < spaces then throw .tooDeep
  match v with
  | .bool true => throw .wrongKind
  | .int n => if n = 0 then return v else throw .wrongKind
  | .float x => if x == 0.0 then return v else throw .wrongKind
  | _ => shorten Spelled.dropSpaces Spelled.dropSpaces v

def enclose : Value → Except Fault Value
  | .text s => .ok (.text s.enclose)
  | _ => .error .wrongKind

def compact : Value → Except Fault Value
  | .text s => .ok (.text s.compact)
  | _ => .error .missingPart

def isEmptyText : Item → Bool
  | .bare (.text []) => true
  | _ => false

/-- A new list without the empty texts of a list; of a text, the list of its characters. -/
def dropEmpty (v : Value) : Run Value := do
  let items ← match v with
    | .text s => pure (s.map fun c => Item.bare (.text [c]))
    | .list r => pure (((← Run.getStore).list r).toList.filter (!isEmptyText ·))
    | _ => throw .wrongKind
  return .list (← Run.alloc (·.newList items.toArray))

/-- An index that comes round at a length. What is no number is compared but not reduced. -/
def wrapIndex (limit : Nat) (index length : Value) : Run Value := do
  match index, length with
  | .int i, .int n => return .int (← Run.ofExcept (Index.wrap limit i n))
  | _, _ =>
    if ← Run.ofExcept ((← Run.getStore).lessItem limit (.bare index)
      (.bare length)) then return index
    else match index.number?, length.number? with
      | some (.int i), some (.int n) => return .int (← Run.ofExcept (Index.wrap limit i n))
      | _, _ => throw .wrongKind

end CommandScript.Sequence
