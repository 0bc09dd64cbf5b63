import CommandScript.Eval.Evaluator

/-!
Words that stand for a text: a line of input, a space, the empty text and the escapes; and the
evaluation of values, which expands these words first.
-/
namespace CommandScript

namespace Literal

def fixed : List (Text × Text) :=
  [ ("space".toList, [' ']), ("none".toList, []),
    ("\\0".toList, [Char.ofNat 0]), ("\\n".toList, ['\n']), ("\\r".toList, ['\r']),
    ("\\t".toList, ['\t']), ("\\v".toList, [Char.ofNat 11]), ("\\\\".toList, ['\\']),
    ("'".toList, ['\'']), ("\"".toList, ['"']), ("\\a".toList, [Char.ofNat 7]) ]

def inputWord : Text := "input".toList

/-- The text that a word stands for, in quotes; any other text stays as it is, and so does the
word for a line of input when the input is at its end. -/
def expand (s : Text) : Run Text :=
  if s = inputWord then
    tryCatch (do return (← Run.readLine).enclose) fun
      | .endOfInput => pure s
      | e => throw e
  else match fixed.lookup s with
    | some t => pure t.enclose
    | none => pure s

end Literal

/-- The value that an element comes to in a scope: its words are expanded, its names looked up,
its numerals read. What means nothing comes to nothing. -/
def evaluate (ev : Evaluator) (home : Option (Ref .scope)) (item : Item) : Run Value := do
  let v ← match ← readItem item with
    | .text s => do pure (Value.text (← Literal.expand s))
    | v => pure v
  (← ev.bind home nameless true v).read

end CommandScript
