import CommandScript.Statement.Files

/-!
Commands for the screen. What they need between one another is kept in a record under the shared
name of the outermost scope: whether there is a display, and the events that were taken and not
yet asked for.
-/
namespace CommandScript

namespace Screen

def stateKey : Key := .text "__pygame__".toList

def displayKey : Key := .text "display".toList

def eventsKey : Key := .text "events".toList

/-- The kind of an event and its key, or -1 where it has none. -/
def eventValues (event : Event) : List Value := [.text event.kind, event.key.elim (.int (-1)) .text]

/-- The variable of the shared record. It has no name, unlike those that programs make. -/
def sharedVariable (record : Ref .record) : Variable where
  name := none
  home := none
  content := .record record
  tag := .object

def sharedRecord (x : Variable) : Except Fault (Ref .record) :=
  match x.name, x.content with
  | none, .record r => .ok r
  | _, _ => .error .wrongKind

def entry (st : Store) (record : Ref .record) (key : Key) : Except Fault Item :=
  match (st.record record).find? key with
  | some item => .ok item
  | none => .error .missingKey

def recordOf : Item → Except Fault (Ref .record)
  | .bare (.record r) => .ok r
  | _ => .error .wrongKind

def listOf : Item → Except Fault (Ref .list)
  | .bare (.list r) => .ok r
  | _ => .error .wrongKind

def state (st : Store) (scope : Ref .scope) : Except Fault (Ref .record) :=
  match (st.tableOf (st.root scope)).find? sharedName with
  | some r => do recordOf (← entry st (← sharedRecord (st.var r)) stateKey)
  | none => .error .missingKey

end Screen

namespace Site

def request (s : Site) (ask : Request) : Run (List Event) := do
  let w ← get
  set { w with requests := ask :: w.requests }
  Run.ofExcept (w.runtime.screen (s.scene w) ask)

def shareRecord (s : Site) : Run (Ref .record) := do
  let st ← Run.getStore
  match (st.tableOf (st.root s.scope)).find? sharedName with
  | some r => Run.ofExcept (Screen.sharedRecord (st.var r))
  | none =>
    let record ← Run.alloc (·.newRecord { body := none })
    Run.changeStore (·.bindName (st.root s.scope) sharedName (Screen.sharedVariable record))
    return record

def startScreen (s : Site) : Run Unit := do
  let _ ← s.request .start
  let shared ← s.shareRecord
  let state ← Run.alloc (·.newRecord { body := none })
  Run.changeStore (·.updateRecord shared (·.put Screen.stateKey (.bare (.record state))))

def keep (s : Site) (key : Key) (v : Value) : Run Unit := do
  let state ← Run.ofExcept (Screen.state (← Run.getStore) s.scope)
  Run.changeStore (·.updateRecord state (·.put key (.bare v)))

def kept (s : Site) (key : Key) : Run Item := do
  let st ← Run.getStore
  Run.ofExcept (do Screen.entry st (← Screen.state st s.scope) key)

def valuesAt (s : Site) (places : List Nat) : Run (List Value) :=
  places.mapM fun i => do s.valueOf (← s.word i)

def setMode (s : Site) : Run Unit := do
  let width ← s.valueOf (← s.word 3)
  let height ← s.valueOf (← s.word 4)
  let _ ← s.request (.setMode width height)
  s.keep Screen.displayKey .nothing

def setCaption (s : Site) : Run Unit := do
  let caption ← innerText (← s.valueOf (Text.unwords (s.command.whole.drop 3)))
  let _ ← s.request (.setCaption (← textOf caption))

def useDisplay (s : Site) : Run Unit := do
  let action ← s.word 2
  if action = "init".toList then discard (s.request .openDisplay)
  else if action = "set_mode".toList then s.setMode
  else if action = "set_caption".toList then s.setCaption
  else if action = "update".toList then discard (s.request .refresh)

def drawRectangle (s : Site) : Run Unit := do
  let color ← s.valuesAt [3, 4, 5]
  let box ← s.valuesAt [6, 7, 8, 9]
  let _ ← s.kept Screen.displayKey
  let _ ← s.request (.drawRectangle color box)

def drawShape (s : Site) : Run Unit := do
  let shape ← s.word 2
  if shape = "rect".toList then s.drawRectangle

def newRow (vs : List Value) : Run Value :=
  do return .list (← Run.alloc (·.newList (vs.map Item.bare).toArray))

def takeEvents (s : Site) : Run Unit := do
  let events ← s.request .takeEvents
  let rows ← events.mapM fun event => newRow (Screen.eventValues event)
  s.keep Screen.eventsKey (← newRow rows)
  let count ← Run.ofExcept (Number.intText events.length)
  s.store (← s.word 3) (.text count)

def pollEvent (s : Site) : Run Unit := do
  let row ← Run.ofExcept (Screen.listOf (← s.kept Screen.eventsKey))
  let st ← Run.getStore
  let event ← Run.ofExcept (Screen.listOf (← Run.nth (st.list row).toList 0))
  Run.changeStore (·.updateList row (·.toList.tail.toArray))
  s.storeItem (← s.word 3) (← Run.nth (st.list event).toList 0)
  s.storeItem (← s.word 4) (← Run.nth (st.list event).toList 1)

def useEvents (s : Site) : Run Unit := do
  let action ← s.word 2
  if action = "get".toList then s.takeEvents
  else if action = "poll".toList then s.pollEvent

def useScreen (s : Site) : Run Unit := do
  let action ← s.word 1
  if action = "init".toList then s.startScreen
  else if action = "quit".toList then discard (s.request .stop)
  else if action = "display".toList then s.useDisplay
  else if action = "draw".toList then s.drawShape
  else if action = "event".toList then s.useEvents

def screen (s : Site) : Run Outcome := do
  let _ ← s.request .load
  s.useScreen
  return .done

end Site

end CommandScript
