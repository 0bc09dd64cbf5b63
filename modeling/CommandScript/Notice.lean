import CommandScript.Store.Show
import CommandScript.World

/-!
Messages to the user about a program that went wrong.
-/
namespace CommandScript.Notice

def notANumber (st : Store) (fuel : Nat) (first second : Value) (operation : Text) :
    Except Fault Text := do
  match first with
  | .nothing => return "RuntimeError: Not a number ".toList ++ operation ++ "(None)".toList
  | _ =>
    return "RuntimeError: Not a number ".toList ++ (← st.showValue fuel first) ++ [' '] ++
      operation ++ [' '] ++
      (← st.showValue fuel second)

def unknownType (st : Store) (fuel : Nat) (v : Value) : Except Fault Text := do
  return "RuntimeError: Unknow type ".toList ++ (← st.showValue fuel v)

def stopped : Text := "Program: Stopped with error".toList

end CommandScript.Notice
