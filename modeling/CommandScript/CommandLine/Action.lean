import CommandScript.CommandLine.Options
import CommandScript.Execution
import CommandScript.Package.Install
import CommandScript.StackMachine.Machine

/-!
The command line of the program: which words ask for what, and doing it.
-/
namespace CommandScript.CommandLine

inductive Action where
  | help
  | version (text : Text)
  | usageError
  | runFile (path : Text)
  | runCode (code : Text)
  | session
  | idle
  | runMachine (path : Text)
  | install (name : Text)
  | update (name : Text)
  | remove (name : Text)
deriving DecidableEq, Repr

def helpOption : Choice := { long := "--help".toList }
def versionOption : Choice := { long := "--version".toList }
def codeOption : Choice := { long := "--code".toList, short := some 'c', takesValue := true }
def interactiveOption : Choice :=
  { long := "--interactive".toList, short := some 'i', takesValue := true }

def boolWords : List (Text × Bool) :=
  ["1", "true", "t", "yes", "y", "on"].map (fun word => (word.toList, true)) ++
    ["0", "false", "f", "no", "n", "off"].map (fun word => (word.toList, false))

def readBool? (word : Text) : Option Bool :=
  boolWords.lookup ((Text.strip Text.isBlank word).map Char.toLower)

def early? (version : Text) (r : Reading) : Option Action :=
  r.options.findSome? fun (name, _) =>
    if name = helpOption.long then some .help
    else if name = versionOption.long then some (.version version)
    else none

/-- The `run` command: a file comes before code, and code before a session. -/
def runAction (words : List Text) : Action :=
  let grammar : Grammar := { choices := [codeOption, interactiveOption, helpOption] }
  match grammar.read words with
  | none => .usageError
  | some r =>
    match early? [] r with
    | some action => action
    | none =>
      let code := (r.value? codeOption.long).getD []
      match r.words, ((r.value? interactiveOption.long).map readBool?).getD (some false) with
      | _ :: _ :: _, _ => .usageError
      | _, none => .usageError
      | words, some interactive =>
        let file := words.headD []
        if !file.isEmpty then .runFile file
        else if !code.isEmpty then .runCode code
        else if interactive then .session
        else .idle

def oneWord (default : Option Text) (action : Text → Action) (words : List Text) : Action :=
  match ({ choices := [helpOption] } : Grammar).read words with
  | none => .usageError
  | some r =>
    match early? [] r, r.words, default with
    | some early, _, _ => early
    | none, [word], _ => action word
    | none, [], some word => action word
    | none, _, _ => .usageError

def group (version : Text) (commands : List (Text × (List Text → Action))) (words : List Text) :
    Action :=
  if words.isEmpty then .help
  else match ({ choices := [versionOption, helpOption], anywhere := false } : Grammar).read words
    with
    | none => .usageError
    | some r =>
      match early? version r, r.words with
      | some early, _ => early
      | none, [] => .usageError
      | none, name :: rest =>
        match commands.lookup name with
        | some command => command rest
        | none => .usageError

def machineVersion : Text := "EsoByte 0.0.1".toList
def packageVersion : Text := "Pia 0.0.1".toList
def languageVersion : Text := "Alany 0.1.2".toList

def machineGroup : List Text → Action :=
  group machineVersion [("run".toList, oneWord none .runMachine)]

def packageGroup : List Text → Action :=
  group packageVersion
    [ ("install".toList, oneWord none .install),
      ("update".toList, oneWord (some []) .update),
      ("remove".toList, oneWord (some []) .remove) ]

/-- What a command line asks for. Words that begin with no known command belong to `run`. -/
def action (words : List Text) : Action :=
  if words.isEmpty then .help
  else
    let grammar : Grammar :=
      { choices := [versionOption, helpOption], anywhere := false, lenient := true }
    match grammar.read words with
    | none => .usageError
    | some r =>
      match early? (languageVersion ++ ", ".toList ++ machineVersion) r, r.words with
      | some early, _ => early
      | none, [] => .usageError
      | none, name :: rest =>
        if name = "run".toList then runAction rest
        else if name = "esobyte".toList then machineGroup rest
        else if name = "pia".toList then packageGroup rest
        else runAction (name :: rest)

def helpText (program : Text) : Text :=
  "Usage: ".toList ++ program ++ (" [OPTIONS] COMMAND [ARGS]...\n\nOptions:\n" ++
    "  --version  Show the version and exit.\n  --help     Show this message and exit.\n\nCommands:\n" ++
    "  run*     Runs the code.\n  esobyte  EsoByte interpreter\n  pia      Package Installer for Alany\n").toList

def runMachine (limits : Limits) (source : Text) : Run Unit := do
  let w ← get
  let (result, m) := StackMachine.Machine.run (StackMachine.program source) limits.rounds
    { input := w.input }
  set { w with input := m.input, printed := m.printed ++ w.printed }
  Run.ofExcept result

def runMachineFile (limits : Limits) (path : Text) : Run Unit := do
  runMachine limits (← Run.readFile path)

def perform (limits : Limits) (seconds program : Text) : Action → Run Nat
  | .help => do
    Run.print (helpText program)
    return 0
  | .version text => do
    Run.printLine ("alany, version ".toList ++ text)
    return 0
  | .usageError => return 2
  | .runFile path => do
    Report.runFile limits seconds path
    return 0
  | .runCode code => do
    Report.runSource limits seconds Report.noFile code
    return 0
  | .session => do
    let (_, _, ending) := Session.run limits (← get)
    set ending.world
    throw ending.fault
  | .idle => return 0
  | .runMachine path => do
    runMachineFile limits path
    return 0
  | .install name => do
    Package.install name
    return 0
  | .update name => do
    Package.update name
    return 0
  | .remove name => do
    Package.remove name
    return 0

def run (limits : Limits) (seconds program : Text) (words : List Text) : Run Nat := do
  if words.isEmpty || words.contains helpOption.long then
    Run.printLine languageVersion
    Run.printLine []
  perform limits seconds program (action words)

end CommandScript.CommandLine
