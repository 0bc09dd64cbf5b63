import CommandScript.Statement.Arithmetic
import CommandScript.Statement.Screen

/-!
Running statements: the verb of a command says what is done, and the evaluators are built level
by level from the rules for one level.
-/
namespace CommandScript

namespace Site

def runVerb (s : Site) : Verb → Run Outcome
  | .print => s.print
  | .putchar => s.putchar
  | .var => s.var
  | .length => s.length
  | .array => s.array
  | .add => s.add
  | .arithmetic op => s.arithmetic op
  | .wave w => s.wave w
  | .formula => s.formula
  | .breakOff => return .stopped .nothing
  | .ifTrue => s.ifTrue
  | .repeatTimes => s.repeatTimes
  | .whileTrue => s.whileTrue
  | .defFunction => s.defFunction
  | .defClass => s.defClass
  | .append => s.append
  | .convert => s.convert
  | .tagOf => s.tagOf
  | .importFile => s.importFile
  | .returnValue => s.returnValue
  | .file => s.useFile
  | .random => s.random
  | .screen => s.screen

end Site

def runStep (ev : Evaluator) (r : Ref .node) (file : Text) : Run Outcome := do
  let node := (← Run.getStore).node r
  let s : Site := { ev, node := r, scope := node.scope, file, command := Command.of node.command }
  match s.command.verb? with
  | some verb => s.runVerb verb
  | none => s.other

namespace Evaluator

def next (ev : Evaluator) : Evaluator where
  room := ev.room + 1
  rounds := ev.rounds
  bind := bindStep ev
  valueOf := valueStep ev
  run := runStep ev

def ofRoom (rounds : Nat) : Nat → Evaluator
  | 0 => exhausted rounds
  | n + 1 => (ofRoom rounds n).next

def ofLimits (limits : Limits) : Evaluator := ofRoom limits.rounds limits.nesting

end Evaluator

end CommandScript
