import CommandScript.Eval.Sequence
import CommandScript.Statement.Values

/-!
Commands that compute: sums, which also join texts and lists, the other operations on numbers,
and sine and cosine.
-/
namespace CommandScript

def Arithmetic.sign : Arithmetic → Text
  | sub => ['-']
  | div => ['/']
  | rem => ['%']
  | mul => ['*']

def Arithmetic.apply : Arithmetic → Number → Number → Except Fault Number
  | sub => Number.sub
  | div => Number.div
  | rem => Number.mod
  | mul => Number.mul

def Wave.name : Wave → Text
  | sin => "sin".toList
  | cos => "cos".toList

def Wave.apply (w : Wave) (n : Number) : Except Fault Number := do
  let x ← n.toFloat
  match Number.parts x with
  | .infinite _ => .error .badValue
  | _ => .ok (.float (match w with
    | sin => x.sin
    | cos => x.cos))

namespace Site

def sum (a b : Value) : Run Value := do
  match a.number?, b.number? with
  | some x, some y => return .ofNumber (← Run.ofExcept (x.add y))
  | _, _ =>
    match a, b with
    | .text t, .text u => return .text (t ++ u).enclose
    | .list l, .list m =>
      let st ← Run.getStore
      return .list (← Run.alloc (·.newList (st.list l ++ st.list m)))
    | _, _ => throw .wrongKind

def add (s : Site) : Run Outcome := do
  let a ← Sequence.dropQuotes (← s.valueOf (← s.word 2))
  let b ← Sequence.dropQuotes (← s.valueOf (← s.word 3))
  s.store (← s.word 1) (← sum a b)
  return .done

def reportOperands (s : Site) (a b : Value) (operation : Text) : Run Outcome := do
  Run.printLine (← Run.ofExcept (Notice.notANumber (← Run.getStore) s.ev.slack a b operation))
  return .failed

def arithmetic (s : Site) (op : Arithmetic) : Run Outcome := do
  let a ← s.valueOf (← s.word 2)
  let b ← s.valueOf (← s.word 3)
  match a.number?, b.number? with
  | some x, some y =>
    let result ← Run.ofExcept (op.apply x y)
    s.store (← s.word 1) (.ofNumber result)
    return .done
  | _, _ => s.reportOperands a b op.sign

def wave (s : Site) (w : Wave) : Run Outcome := do
  let a ← s.valueOf (← s.word 2)
  match a.number? with
  | some x =>
    let result ← Run.ofExcept (w.apply x)
    s.store (← s.word 1) (.ofNumber result)
    return .done
  | none => s.reportOperands a .nothing w.name

end Site

end CommandScript
