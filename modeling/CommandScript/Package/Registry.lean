import CommandScript.Text.Blank
import CommandScript.World

/-!
The names of packages: lists of lines, each a name and the address of a repository with an equals
sign between them.
-/
namespace CommandScript.Package

def listDirectory : Text := "lists/".toList

/-- The lines of a text; a line break at the end begins no further line. -/
def lines (text : Text) : List Text :=
  let all := text.splitOn '\n'
  if all.getLast? = some [] then all.dropLast else all

def entry (line : Text) : Except Fault (Text × Text) :=
  match (Text.strip Text.isBlank line).splitOn '=' with
  | name :: address :: _ => .ok (name, address)
  | _ => .error .badIndex

/-- Binds a name to an address; a later binding counts. -/
def bind (name address : Text) : List (Text × Text) → List (Text × Text)
  | [] => [(name, address)]
  | (n, old) :: rest =>
    if n = name then (name, address) :: rest else (n, old) :: bind name address rest

def readLines : List (Text × Text) → List Text → Except Fault (List (Text × Text))
  | known, [] => .ok known
  | known, line :: rest => do
    let (name, address) ← entry line
    readLines (bind name address known) rest

def registry (files : FileTree) : Except Fault (List (Text × Text)) := do
  let directory ← files.locate listDirectory
  (files.filesIn directory).foldlM (fun known (_, content) =>
    readLines known (lines (FileTree.plainLines content))) []

def address (files : FileTree) (name : Text) (given : Option Text) : Except Fault Text :=
  match given with
  | some address => .ok address
  | none => do
    match (← registry files).lookup name with
    | some address => .ok address
    | none => .error .missingKey

end CommandScript.Package
