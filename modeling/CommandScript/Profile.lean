import CommandScript.World

/-!
Entries in the user's shell profile that make a directory of libraries known.
-/
namespace CommandScript.Profile

inductive Part where
  | packages
  | standardLibrary
deriving DecidableEq, Repr

def Part.libraries : Part → Text
  | packages => "/modules/".toList
  | standardLibrary => "/std/".toList

/-- The command that makes a directory known; directories known already stay so. -/
def exportCommand (libraryPath : Option Text) (directory : Text) : Text :=
  "export ALANY_PATH=".toList ++
  (if libraryPath.isSome then "$ALANY_PATH:".toList else []) ++ directory

/-- The profile in a home directory; without one the name begins with a word for nothing. -/
def fileName (home : Option Text) : Text := home.getD "None".toList ++ "/.bash_profile".toList

def setUp (home : Option Text) (directory : Text) (part : Part) : Run Unit := do
  let command := exportCommand (← get).host.libraryPath (directory ++ part.libraries)
  Run.changeFiles (·.append (fileName home) ('\n' :: command))

end CommandScript.Profile
