import CommandScript.Eval.Call
import CommandScript.Statement.Command

/-!
Commands that print and store values.
-/
namespace CommandScript.Site

def valueOf (s : Site) (text : Text) : Run Value := s.ev.valueOf s.scope text

def word (s : Site) (i : Nat) : Run Text := Run.nth s.command.whole i

def variableOf (s : Site) (name : Text) : Run (Ref .variable) :=
  do heldItem (← lookup s.ev s.scope name)

def store (s : Site) (name : Text) (v : Value) : Run Unit := assign s.ev s.scope true name (.bare v)

def storeItem (s : Site) (name : Text) (item : Item) : Run Unit :=
  assign s.ev s.scope true name item

def storeLocal (s : Site) (name : Text) (v : Value) : Run Unit :=
  assign s.ev s.scope false name (.bare v)

def shown (s : Site) (text : Text) : Run Text := do
  let v ← s.valueOf text
  let shown ← Run.ofExcept ((← Run.getStore).showValue s.ev.slack v)
  return if Spelled.isQuoted shown then Spelled.inner shown else shown

def print (s : Site) : Run Outcome := do
  Run.print (Text.unwords (← (s.command.whole.drop 1).mapM s.shown))
  return .done

def putchar (s : Site) : Run Outcome := do
  let v ← s.valueOf (Text.unwords (s.command.whole.drop 1))
  let code ← Run.ofExcept (do Number.truncate (← v.toFloat))
  Run.print [← Run.ofExcept (Number.toChar code)]
  return .done

/-- Sets a variable. The value is all that follows the first equals sign, or with the word
`local` all that follows the third word. Without a file a new variable is local too. -/
def var (s : Site) : Run Outcome := do
  let first ← s.word 1
  if first = "local".toList then
    let name := Text.before '=' (← s.word 2)
    let v ← s.valueOf (Text.unwords (s.command.whole.drop 3))
    s.storeLocal name v
  else
    let v ← s.valueOf (Spelled.trimSpaces (Text.after '=' s.command.text))
    assign s.ev s.scope (!s.file.isEmpty) (Text.before '=' first) (.bare v)
  return .done

def length (s : Site) : Run Outcome := do
  let name ← Run.nth s.command.spread 1
  let v ← readVariable (← s.variableOf (← Run.nth s.command.spread 2))
  let n ← Run.ofExcept ((← Run.getStore).length v)
  s.store name (.int n)
  return .done

def newList (s : Site) (texts : List Text) : Run Value := do
  let vs ← texts.mapM s.valueOf
  return .list (← Run.alloc (·.newList (vs.map Item.bare).toArray))

def array (s : Site) : Run Outcome := do
  let words := s.command.spread
  let second ← Run.nth words 2
  let first ← Run.nth words 1
  let isLocal := first = "local".toList
  let elements := if second = "none".toList then [] else words.drop (if isLocal then 3 else 2)
  let v ← s.newList elements
  if isLocal then s.storeLocal second v else s.store first v
  return .done

def append (s : Site) : Run Outcome := do
  let v ← s.valueOf (← s.word 2)
  let r ← s.variableOf (← s.word 1)
  match ((← Run.getStore).var r).content with
  | .list l => Run.changeStore (·.updateList l (·.push (.bare v)))
  | _ => throw .missingPart
  return .done

/-- Gives a variable a tag and the value that goes with it. The tag changes first. -/
def retag (s : Site) (tag : Tag) (convert : Value → Run Value) : Run Unit := do
  let r ← s.variableOf (← s.word 2)
  let v ← readVariable r
  Run.changeStore (·.updateVariable r fun x => { x with tag })
  assignVariable s.ev r (.bare (← convert v))

def unquoted : Value → Value
  | .text t => .text (if Spelled.isQuoted t then Spelled.inner t else t)
  | v => v

def convert (s : Site) : Run Outcome := do
  let target ← s.word 1
  if target = Tag.name .int then
    s.retag .int fun v => do return .int (← Run.ofExcept (unquoted v).toInt)
  else if target = Tag.name .float then
    s.retag .float fun v => do return .float (← Run.ofExcept (unquoted v).toFloat)
  else if target = Tag.name .text then
    s.retag .text fun v => do
      return .text (← Run.ofExcept ((← Run.getStore).showValue s.ev.slack v))
  return .done

def tagOf (s : Site) : Run Outcome := do
  let r ← s.variableOf (← s.word 1)
  let tag := ((← Run.getStore).var r).tag
  declare s.ev s.scope (← s.word 2) (.bare (.text tag.name.enclose))
  return .done

def random (s : Site) : Run Outcome := do
  let name ← s.word 1
  let x ← Run.draw
  declare s.ev s.scope name (.bare (.float x))
  return .done

def scene (s : Site) (w : World) : Scene := w.scene s.node s.scope s.ev.slack

def answer (s : Site) (text : Text) : Run Item := do
  let w ← get
  let answer ← Run.ofExcept (w.runtime.formula (s.scene w) s.file text)
  Run.changeStore (·.addAll answer.lists answer.records)
  return answer.value

def formula (s : Site) : Run Outcome := do
  let name ← s.word 1
  let item ← s.answer (s.command.whole.drop 2).flatten
  s.storeItem name item
  return .done

end CommandScript.Site
