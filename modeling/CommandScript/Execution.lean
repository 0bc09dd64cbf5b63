import CommandScript.Statement.Run

/-!
Running programs from their source: once in a scope, with a report to the user, or chunk by chunk
in a session.
-/
namespace CommandScript

namespace Program

def execute (limits : Limits) (program : Ref .node) (file : Text) : Run Outcome :=
  runBody (Evaluator.ofLimits limits) program file

def run (limits : Limits) (scope : Ref .scope) (interactive : Bool) (file source : Text) :
    Run Outcome := do
  execute limits (← load (2 * limits.nesting) scope interactive source) file

end Program

namespace Report

def completed (seconds : Text) : Text :=
  "\nProgram: Completed in ".toList ++ seconds ++ " seconds".toList

def runSource (limits : Limits) (seconds file source : Text) : Run Unit := do
  let scope ← Run.alloc (·.newScope none)
  let outcome ← Program.run limits scope false file source
  Run.printLine (if outcome.isSuccess then completed seconds else Notice.stopped)

def noFile : Text := ['/']

def runFile (limits : Limits) (seconds path : Text) : Run Unit := do
  runSource limits seconds path (← Run.readFile path)

end Report

def World.outputSince (w : World) (count : Nat) : Text :=
  (w.printed.take (w.printed.length - count)).reverse.flatten

namespace Session

def prompt : Text := ">>> ".toList

/-- Lines up to an end of the input, each asked for with a prompt. The bound is on the number of
lines. -/
def readLines : Nat → Run (List Text)
  | 0 => throw .unfinished
  | n + 1 => do
    Run.print prompt
    let line ← tryCatch (do return some (← Run.readLine)) fun
      | .endOfInput => return none
      | e => throw e
    match line with
    | some line => return line :: (← readLines n)
    | none => return []

def readChunk : Run Text := do
  return ['\n'].intercalate (← readLines ((← get).input.lines.length + 1))

/-- A chunk that was run: what was typed and how the prompts looked, its flat form, what it printed,
and the store that it left. -/
structure Chunk where
  typed : Text
  prompts : Text
  flat : Text
  output : Text
  store : Store

/-- How a session ended: the fault, which is also how the other side hangs up, the last world, and
what was printed last: the prompts of a chunk that was not read to its end, or what a chunk
printed before its fault. -/
structure Ending where
  fault : Fault
  world : World
  output : Text

def step (limits : Limits) (scope : Ref .scope) (w : World) : Except Ending (Chunk × World) :=
  match readChunk.exec w with
  | (.error fault, asked) => .error ⟨fault, asked, asked.outputSince w.printed.length⟩
  | (.ok typed, asked) =>
    match (Program.run limits scope true Report.noFile typed).exec asked with
    | (.error fault, ran) => .error ⟨fault, ran, ran.outputSince asked.printed.length⟩
    | (.ok _, ran) =>
      .ok ({ typed
             prompts := asked.outputSince w.printed.length
             flat := Layout.flatten typed
             output := ran.outputSince asked.printed.length
             store := ran.store }, ran)

def chunks (limits : Limits) (scope : Ref .scope) : Nat → World → List Chunk × Ending
  | 0, w => ([], ⟨.unfinished, w, []⟩)
  | n + 1, w =>
    match step limits scope w with
    | .error ending => ([], ending)
    | .ok (chunk, after) =>
      let (rest, ending) := chunks limits scope n after
      (chunk :: rest, ending)

/-- A session in a new scope. Every chunk takes an end of the input, so there are no more chunks
than lines. -/
def run (limits : Limits) (w : World) : Ref .scope × List Chunk × Ending :=
  let (scope, store) := w.store.newScope none
  (scope, chunks limits scope (w.input.lines.length + 1) { w with store })

end Session

end CommandScript
