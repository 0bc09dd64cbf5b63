import CommandScript.Package.Registry

/-!
Installing, updating and removing packages. A package is named, or given by the address of its
repository; then its name is what follows the last slash.
-/
namespace CommandScript.Package

def moduleDirectory (name : Text) : Path :=
  "modules".toList :: (name.splitOn '/').filter (!·.isEmpty)

def schemes : List Text := ["http://".toList, "https://".toList, "git@".toList]

def target (given : Text) : Text × Option Text :=
  if schemes.any (·.isPrefixOf given) then ((given.splitOn '/').getLast?.getD [], some given)
    else (given, none)

def clone (address name : Text) : Run Unit :=
  modify fun w =>
    { w with
      clones := (address, "./modules/".toList ++ name) :: w.clones
      files := w.files.makeDirectory (moduleDirectory name) }

def installNamed (name : Text) (given : Option Text) : Run Unit := do
  clone (← Run.ofExcept (address (← get).files name given)) name

def removeNamed (name : Text) : Run Unit :=
  Run.changeFiles fun files => do
    return files.removeTree (← files.locate ("modules/".toList ++ name ++ ['/']))

/-- Installs a package; an empty name asks for nothing. -/
def install (given : Text) : Run Unit := do
  if given.isEmpty then return
  let (name, address) := target given
  installNamed name address

def remove (given : Text) : Run Unit := do
  if given.isEmpty then return
  removeNamed (target given).1

def update (given : Text) : Run Unit := do
  if given.isEmpty then return
  let (name, address) := target given
  removeNamed name
  installNamed name address

end CommandScript.Package
