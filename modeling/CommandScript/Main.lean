import CommandScript.CommandLine.Action
import CommandScript.Eval.Sequence
import CommandScript.Profile

/-!
The program at the terminal. Programs run on a picture of the files that they can name; when a
line of input is needed, it is read and the run is made again with one line more, so that only
what is new has to be shown. What was written is put into the files at the end.
-/
namespace CommandScript.Terminal

def directoryLevels : Nat := 8

def gather (base : Path) : Nat → IO.FS.DirEntry → IO (List (Path × Text))
  | 0, _ => return []
  | levels + 1, entry => do
    let path := base ++ [entry.fileName.toList]
    if ← entry.path.isDir then
      let inside ← (← entry.path.readDir).toList.mapM (gather path levels)
      return inside.flatten
    else
      try return [(path, (← IO.FS.readFile entry.path).toList)]
      catch _ => return []

def gatherAll (name : String) (base : Path) : IO (List (Path × Text)) := do
  try
    let inside ← (← (((← IO.currentDir) / name)).readDir).toList.mapM (gather base directoryLevels)
    return inside.flatten
  catch _ => return []

def libraryBase : Text → Path
  | '/' :: rest => Path.top ++ (rest.splitOn '/').filter (!·.isEmpty)
  | name => (name.splitOn '/').filter fun part => !part.isEmpty && part ≠ ['.']

def picture (libraryPath : Option Text) : IO FileTree := do
  let mine ← gatherAll "." []
  let directories := (libraryPath.map (Import.directories .posix)).getD []
  let libraries ← directories.mapM fun d => gatherAll (String.ofList d) (libraryBase d)
  return { files := (mine ++ libraries.flatten).eraseDups }

def chance : IO (List Float) :=
  (List.range 1000).mapM fun _ => do
    return (← IO.rand 0 (Number.twoTo 53 - 1)).toFloat / (Number.twoTo 53).toFloat

def systemName (p : Path) : String :=
  if Path.top.isPrefixOf p then "/" ++ String.ofList (['/'].intercalate (p.drop 1))
  else String.ofList (['/'].intercalate p)

def save (before after : FileTree) : IO Unit :=
  after.files.forM fun (p, content) => do
    if before.files.lookup p != some content then IO.FS.writeFile (systemName p) (String.ofList content)

def secondsSince (start : Nat) : IO Text := do
  return Number.floatText (((← IO.monoNanosNow) - start).toFloat / 1000000000.0)

/-- Runs with the lines typed so far; `shown` is how much of the output is on the screen. A second
end of the input in a row ends the conversation. -/
partial def converse (words : List Text) (start : World) (moment shown : Nat)
(lines : List (Option Text)) :
    IO UInt32 := do
  let world := { start with input := { lines, hangsUp := true } }
  let act (seconds : Text) :=
    (CommandLine.run Limits.standard seconds "alany".toList words).exec world
  let (first, _) := act "0.0".toList
  let seconds ← match first with
    | .ok _ => secondsSince moment
    | .error _ => pure []
  let (result, after) := act seconds
  IO.print (String.ofList (after.output.drop shown))
  (← IO.getStdout).flush
  match result with
  | .error .hangUp =>
    let line ← (← IO.getStdin).getLine
    if line.isEmpty then
      if lines.getLast? = some none then
        save start.files after.files
        return 0
      else converse words start moment after.output.length (lines ++ [none])
    else
      let text := line.toList
      let text := if text.getLast? = some '\n' then text.dropLast else text
      converse words start moment after.output.length (lines ++ [some text])
  | .error fault =>
    save start.files after.files
    IO.eprintln (reprStr fault)
    return 1
  | .ok code =>
    save start.files after.files
    after.clones.reverse.forM fun (address, place) =>
      IO.eprintln s!"to be fetched: {String.ofList address} to {String.ofList place}"
    return code.toUInt32

end CommandScript.Terminal

open CommandScript in
def main (arguments : List String) : IO UInt32 := do
  let libraryPath := (← IO.getEnv "ALANY_PATH").map String.toList
  let start : World :=
    { files := ← Terminal.picture libraryPath
      draws := ← Terminal.chance
      host := { libraryPath } }
  Terminal.converse (arguments.map String.toList) start (← IO.monoNanosNow) 0 []
