import CommandScript.Text.Basic

/-!
The commands of the stack machine. A program is one line of commands between semicolons, where a
backslash and an `n` stand for a line break. Words that a command needs and does not have are
missed only when it is carried out.
-/
namespace CommandScript.StackMachine

inductive Operation where
  | sum
  | dif
  | div
  | mul
deriving DecidableEq, Repr

inductive Test where
  | equal
  | less
  | larger
deriving DecidableEq, Repr

inductive Instr where
  | push (s : Text)
  | compute (op : Operation)
  | duplicate
  | reverse
  | clear
  | swap
  /-- a `stack` command with another word, or with none -/
  | stackOther (hasWord : Bool)
  | out
  | putchar
  | readLine
  | save (name : Option Text)
  | load (name : Option Text)
  /-- a `memory` command with another word, or with none -/
  | memoryOther (hasWord : Bool)
  | jump (target : Option Text)
  | jumpIf (test : Test) (target : Option Text)
  | endFunction
  | call (name : Option Text)
  | function (name : Option Text)
  | skip
deriving DecidableEq, Repr

namespace Instr

def ofWords (words : List Text) : Instr :=
  let second := words[1]?
  let third := words[2]?
  match String.ofList (words.headD []) with
  | "add" => .push (Text.unwords (words.drop 1))
  | "sum" => .compute .sum
  | "dif" => .compute .dif
  | "div" => .compute .div
  | "mul" => .compute .mul
  | "stack" =>
    match second.map String.ofList with
    | some "mul" => .duplicate
    | some "rev" => .reverse
    | some "clr" => .clear
    | some "trv" => .swap
    | other => .stackOther other.isSome
  | "out" => .out
  | "putchar" => .putchar
  | "in" => .readLine
  | "memory" =>
    match second.map String.ofList with
    | some "save" => .save third
    | some "load" => .load third
    | other => .memoryOther other.isSome
  | "jump" => .jump second
  | "equal" => .jumpIf .equal second
  | "less" => .jumpIf .less second
  | "larger" => .jumpIf .larger second
  | "endfun" => .endFunction
  | "run" => .call second
  | "fun" => .function second
  | _ => .skip

def ofText (command : Text) : Instr := ofWords command.words

end Instr

def program (source : Text) : List Instr :=
  ((Text.replace "\\n".toList ['\n'] (source.filter (· != '\n'))).splitOn ';').map Instr.ofText

end CommandScript.StackMachine
