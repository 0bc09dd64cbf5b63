import CommandScript.Text.Basic

/-!
Words of a command line with options among them. A long option has two dashes, and its value
follows an equals sign or is the next word; a short one is a letter after one dash, and its value
is the rest of the word or the next word. Two dashes alone end the options.
-/
namespace CommandScript.CommandLine

structure Choice where
  long : Text
  short : Option Char := none
  takesValue : Bool := false

structure Grammar where
  choices : List Choice
  /-- whether options may follow other words -/
  anywhere : Bool := true
  /-- whether unknown options count as other words -/
  lenient : Bool := false

/-- What has been read: options with their values in order, other words, an option that still needs
its value, and whether the options have ended. -/
structure Reading where
  options : List (Text × Text) := []
  words : List Text := []
  pending : Option Text := none
  ended : Bool := false

namespace Reading

def addOption (r : Reading) (name value : Text) : Reading :=
  { r with options := r.options ++ [(name, value)] }

def addWord (r : Reading) (word : Text) : Reading := { r with words := r.words ++ [word] }

end Reading

namespace Grammar

/-- Reads letters of short options; `unknown` are the unknown letters met so far in the word. -/
def readLetters (g : Grammar) (r : Reading) (unknown : Text) : Text → Option Reading
  | [] => some (if unknown.isEmpty then r else r.addWord ('-' :: unknown))
  | letter :: rest =>
    match g.choices.find? (·.short = some letter) with
    | some choice =>
      if choice.takesValue then
        let r := if unknown.isEmpty then r else r.addWord ('-' :: unknown)
        some (if rest.isEmpty then { r with pending := some choice.long }
          else r.addOption choice.long rest)
      else g.readLetters (r.addOption choice.long []) unknown rest
    | none => if g.lenient then g.readLetters r (unknown ++ [letter]) rest else none

def readOption (g : Grammar) (r : Reading) (word : Text) : Option Reading :=
  let value := if word.contains '=' then some (Text.after '=' word) else none
  match g.choices.find? (·.long = Text.before '=' word), value with
  | some choice, some value =>
    if choice.takesValue then some (r.addOption choice.long value) else none
  | some choice, none =>
    some (if choice.takesValue then { r with pending := some choice.long }
      else r.addOption choice.long [])
  | none, _ =>
    if "--".toList.isPrefixOf word then (if g.lenient then some (r.addWord word) else none)
    else g.readLetters r [] (word.drop 1)

def readWord (g : Grammar) (r : Reading) (word : Text) : Option Reading :=
  if r.ended then some (r.addWord word)
  else match r.pending with
    | some name => some { r.addOption name word with pending := none }
    | none =>
      if word = "--".toList then some { r with ended := true }
      else if word.head? = some '-' && 1 < word.length then g.readOption r word
      else some { r.addWord word with ended := !g.anywhere }

def read (g : Grammar) (words : List Text) : Option Reading := do
  let r ← words.foldlM g.readWord {}
  if r.pending.isSome then none else some r

end Grammar

def Reading.value? (r : Reading) (name : Text) : Option Text := r.options.reverse.lookup name

end CommandScript.CommandLine
