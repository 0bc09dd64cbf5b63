import CommandScript.Fault
import CommandScript.Text.Basic

/-!
A tree of files, and names as they are looked up in it. A name is a row of parts between
slashes; empty parts and single dots stay where they are, two dots go up. Every part on the way
must be a directory. Names lead down from the working directory, or with a slash in front from
the top of the file system; no name leads above the working directory.
-/
namespace CommandScript

/-- The parts of a name, from the working directory down, or after `Path.top` from the top down. -/
abbrev Path := List Text

def Path.top : Path := [['/']]

/-- Files with their content, and directories that hold nothing. A directory that holds a file is
there because of the file. -/
structure FileTree where
  files : List (Path × Text) := []
  directories : List Path := []

inductive Entry where
  | file (content : Text)
  | directory
  | absent

namespace FileTree

def isDirectory (t : FileTree) (p : Path) : Bool :=
  p.isEmpty || t.directories.any p.isPrefixOf ||
    t.files.any fun (q, _) => p.isPrefixOf q && p.length < q.length

def entry (t : FileTree) (p : Path) : Entry :=
  match t.files.lookup p with
  | some content => .file content
  | none => if t.isDirectory p || p == Path.top then .directory else .absent

/-- Follows the parts of a name from a directory. Before each part, the path so far must be a
directory; the last part need not exist. -/
def follow (t : FileTree) (here : Path) : List Text → Except Fault Path
  | [] => .ok here
  | part :: rest =>
    match t.entry here with
    | .absent => .error .fileNotFound
    | .file _ => .error .notDirectory
    | .directory =>
      if part = [] ∨ part = ['.'] then t.follow here rest
      else if part = ['.', '.'] then
        if here.isEmpty then .error .fileNotFound
        else t.follow (if here = Path.top then here else here.dropLast) rest
      else t.follow (here ++ [part]) rest

def locate (t : FileTree) (name : Text) : Except Fault Path :=
  if name.contains (Char.ofNat 0) then .error .badValue
  else match name with
    | [] => .error .fileNotFound
    | '/' :: rest => t.follow Path.top (rest.splitOn '/')
    | _ => t.follow [] (name.splitOn '/')

def plainLines : Text → Text
  | '\r' :: '\n' :: rest => '\n' :: plainLines rest
  | '\r' :: rest => '\n' :: plainLines rest
  | c :: rest => c :: plainLines rest
  | [] => []

def isPresent (t : FileTree) (name : Text) : Bool :=
  match t.locate name with
  | .ok p => match t.entry p with
    | .absent => false
    | _ => true
  | .error _ => false

def read (t : FileTree) (name : Text) : Except Fault Text := do
  match t.entry (← t.locate name) with
  | .file content => .ok (plainLines content)
  | .directory => .error .isDirectory
  | .absent => .error .fileNotFound

def setFile (p : Path) (content : Text) : List (Path × Text) → List (Path × Text)
  | [] => [(p, content)]
  | (q, old) :: rest => if q = p then (p, content) :: rest else (q, old) :: setFile p content rest

/-- The path at which a name may be written: its directory exists, and it is no directory itself. -/
def writable (t : FileTree) (name : Text) : Except Fault Path := do
  let p ← t.locate name
  match t.entry p with
  | .directory => .error .isDirectory
  | .file _ => .ok p
  | .absent => if t.isDirectory p.dropLast then .ok p else .error .fileNotFound

def write (t : FileTree) (name content : Text) : Except Fault FileTree := do
  let p ← t.writable name
  return { t with files := setFile p content t.files }

def append (t : FileTree) (name content : Text) : Except Fault FileTree := do
  let p ← t.writable name
  return { t with files := setFile p ((t.files.lookup p).getD [] ++ content) t.files }

def filesIn (t : FileTree) (directory : Path) : List (Path × Text) :=
  t.files.filter fun (p, _) => !p.isEmpty && p.dropLast == directory

def namesIn (t : FileTree) (directory : Path) : List Text :=
  ((t.files.map (·.1) ++ t.directories).filterMap fun p =>
    if directory.isPrefixOf p then (p.drop directory.length).head? else none).eraseDups

def makeDirectory (t : FileTree) (p : Path) : FileTree :=
  if t.isDirectory p then t else { t with directories := t.directories ++ [p] }

/-- Removes a directory and all that it holds; the directory around it stays. -/
def removeTree (t : FileTree) (p : Path) : FileTree :=
  let rest : FileTree :=
    { files := t.files.filter fun (q, _) => !p.isPrefixOf q
      directories := t.directories.filter fun q => !p.isPrefixOf q }
  rest.makeDirectory p.dropLast

end FileTree

end CommandScript
