import CommandScript.Statement.Values

/-!
Commands that steer a program: tests, loops, leaving a block, definitions, calls.
-/
namespace CommandScript

def loopTimes (body : Run Outcome) : Nat → Run Outcome
  | 0 => return .done
  | n + 1 => do
    match ← body with
    | .done => loopTimes body n
    | other => return other

def loopWhile (test : Run Bool) (body : Run Outcome) : Nat → Run Outcome
  | 0 => throw .unfinished
  | n + 1 => do
    if ← test then
      match ← body with
      | .done => loopWhile test body n
      | other => return other
    else return .done

namespace Site

def body (s : Site) : Run Outcome := runBody s.ev s.node s.file

def holds (s : Site) (text : Text) : Run Bool := do
  let v ← condition s.ev s.scope text
  return (← Run.getStore).isTrue v

def ifTrue (s : Site) : Run Outcome := do
  if ← s.holds (← Run.nth s.command.bare 1) then s.body else return .done

def repeatTimes (s : Site) : Run Outcome := do
  let v ← s.valueOf (← Run.nth s.command.bare 1)
  loopTimes s.body (← Run.ofExcept v.toInt).toNat

def whileTrue (s : Site) : Run Outcome := do
  loopWhile (do s.holds (← Run.nth s.command.bare 1)) s.body s.ev.rounds

def definedName (s : Site) : Run Text := do return Text.before '(' (← s.word 1)

def defFunction (s : Site) : Run Outcome := do
  declareGlobal s.ev s.scope (← s.definedName) (.bare (.node s.node))
  return .done

/-- Makes a class of the statement: its scope is sealed while the body runs, so that what the body
declares becomes its members. -/
def defClass (s : Site) : Run Outcome := do
  let name ← s.definedName
  Run.changeStore (·.updateScope s.scope fun x => { x with isSealed := true })
  let _ ← s.body
  let vars := ((← Run.getStore).scope s.scope).table
  let r ← Run.alloc (·.newRecord { body := some (vars, s.node) })
  Run.changeStore (·.updateScope s.scope fun x => { x with isSealed := false })
  declareGlobal s.ev s.scope name (.bare (.record r))
  return .done

def returnValue (s : Site) : Run Outcome := do
  return .stopped (← s.valueOf (Text.unwords (s.command.whole.drop 1)))

/-- The arguments of a call that stands alone: up to the first closing parenthesis, all spaces and
opening parentheses apart. -/
def callArguments (s : Site) : List Text :=
  argumentList (Text.before ')' ((Text.after '(' s.command.whole.flatten).filter (· != '(')))

/-- Evaluates arguments and declares the parameters with them; there must be a parameter for each
argument. -/
def passArguments (s : Site) (callee : Ref .scope) : List Text → List Text → Run Unit
  | [], _ => return
  | argument :: rest, names => do
    let v ← s.valueOf argument
    match names with
    | name :: names =>
      declare s.ev callee name (.bare v)
      s.passArguments callee rest names
    | [] => throw .badIndex

/-- A command that begins with the name of a variable: the call of a function, or an assignment of
all that follows the first word. -/
def callOrAssign (s : Site) (first : Text) : Run Outcome := do
  let r ← s.variableOf (first.before '(')
  let x := (← Run.getStore).var r
  if x.tag = .function then
    let .node callee ← x.read | throw .missingPart
    let node := (← Run.getStore).node callee
    let names ← parameters node.command
    s.passArguments node.scope s.callArguments names
    let _ ← runBody s.ev callee s.file
  else
    let v ← s.valueOf (Text.unwords (s.command.whole.drop 1))
    s.store first v
  return .done

def echo (s : Site) : Run Outcome := do
  let words := s.command.whole.filter (!·.isEmpty)
  let texts ← words.mapM s.shown
  if !texts.isEmpty then Run.printLine (Text.unwords texts)
  return .done

def other (s : Site) : Run Outcome := do
  let st ← Run.getStore
  let first ← s.word 0
  if st.isVisible s.scope (first.before '(') then s.callOrAssign first
  else if (st.node s.node).interactive then s.echo
  else s.body

end Site

end CommandScript
