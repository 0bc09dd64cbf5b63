import CommandScript.Program
import CommandScript.Statement.Control

/-!
Commands that use files: reading, writing, and running the program in another file.
-/
namespace CommandScript

namespace Import

/-- The directories of a library path. Where drive letters have colons of their own, two parts
make one directory, and an odd one at the end is dropped. -/
def directories (platform : Platform) (libraryPath : Text) : List Text :=
  let parts := libraryPath.splitOn ':'
  match platform with
  | .posix => parts
  | .windows => pairs parts
where
  pairs : List Text → List Text
    | drive :: rest :: more => (drive ++ ':' :: rest) :: pairs more
    | _ => []

def moduleFile (separator : Char) (directory name : Text) : Text :=
  directory ++ separator :: name ++ ".aln".toList

def packageFile (separator : Char) (directory name : Text) : Text :=
  directory ++ separator :: name ++ separator :: "__main__.aln".toList

def candidates (separator : Char) (directory name : Text) : List Text :=
  [moduleFile separator directory name, packageFile separator directory name]

/-- The file of a library: the first candidate that is present, or the bare name. -/
def searchLibrary (files : FileTree) (separator : Char) (directories : List Text) (name : Text) :
    Text :=
  ((directories.flatMap fun d => candidates separator d name).find? files.isPresent).getD name

def directoryOf (separator : Char) (file : Text) : Text :=
  [separator].intercalate (file.splitOn separator).dropLast

/-- The file that an import means: a library after a tilde, a name from the top as it stands, and
any other name next to the importing file. -/
def resolve (host : Host) (files : FileTree) (importer name : Text) : Except Fault Text :=
  let separator := host.platform.separator
  match name with
  | [] => .error .badIndex
  | '~' :: library =>
    match host.libraryPath with
    | some path => .ok (searchLibrary files separator (directories host.platform path) library)
    | none => .error .missingPart
  | c :: _ =>
    if c = separator then .ok name
    else .ok (directoryOf separator importer ++ separator :: name ++ ".aln".toList)

end Import

namespace Site

/-- Runs the program in another file in this scope. How it ends does not matter. -/
def importFile (s : Site) : Run Outcome := do
  let name ← s.word 1
  let w ← get
  let path ← Run.ofExcept (Import.resolve w.host w.files s.file name)
  let source ← Run.readFile path
  let program ← Program.load s.ev.slack s.scope false source
  let _ ← s.ev.run program path
  return .done

/-- What stands between the first and the last element of a value: a text, or for a list nothing
that could be a name or be written. -/
def innerText : Value → Run (Option Text)
  | .text t => return some (Spelled.inner t)
  | .list _ => return none
  | _ => throw .wrongKind

def textOf : Option Text → Run Text
  | some t => return t
  | none => throw .wrongKind

def useFile (s : Site) : Run Outcome := do
  let action ← s.word 1
  if action = "read".toList then
    let path ← innerText (← s.valueOf (← s.word 2))
    let name ← s.word 3
    let content ← Run.readFile (← textOf path)
    declare s.ev s.scope name (.bare (.text content.encloseSingle))
  else if action = "write".toList then
    let path ← innerText (← s.valueOf (← s.word 2))
    let content ← innerText (← s.valueOf (← s.word 3))
    let path ← textOf path
    Run.writeFile path (content.getD [])
    let _ ← textOf content
  return .done

end Site

end CommandScript
