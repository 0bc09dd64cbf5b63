import CommandScript.Eval.Evaluator

/-!
Commands as rows of words. Most commands are read as they stand; some are read without their
equals signs, and those that open blocks without their parentheses. The first word that one of
these readings finds at the front says what the command does.
-/
namespace CommandScript

structure Command where
  text : Text
  /-- the words as they stand -/
  whole : List Text
  /-- the words without equals signs, where double spaces are taken for single ones, once -/
  spread : List Text
  /-- the words without parentheses -/
  bare : List Text

inductive Arithmetic where
  | sub
  | div
  | rem
  | mul
deriving DecidableEq, Repr

inductive Wave where
  | sin
  | cos
deriving DecidableEq, Repr

inductive Verb where
  | print
  | putchar
  | var
  | length
  | array
  | add
  | arithmetic (op : Arithmetic)
  | wave (w : Wave)
  | formula
  | breakOff
  | ifTrue
  | repeatTimes
  | whileTrue
  | defFunction
  | defClass
  | append
  | convert
  | tagOf
  | importFile
  | returnValue
  | file
  | random
  | screen
deriving DecidableEq, Repr

inductive View where
  | whole
  | spread
  | bare
deriving DecidableEq, Repr

namespace Command

def of (text : Text) : Command where
  text
  whole := text.words
  spread := (Text.replace "  ".toList [' '] (text.filter (· != '='))).words
  bare := Text.words (text.filter fun c => c != '(' && c != ')')

def view (c : Command) : View → List Text
  | .whole => c.whole
  | .spread => c.spread
  | .bare => c.bare

/-- The words that commands begin with, in the order in which they are tried. -/
def verbs : List (View × Text × Verb) :=
  [ (.whole, "print".toList, .print),
    (.whole, "putchar".toList, .putchar),
    (.whole, "var".toList, .var),
    (.spread, "len".toList, .length),
    (.spread, "array".toList, .array),
    (.whole, "add".toList, .add),
    (.whole, "sub".toList, .arithmetic .sub),
    (.whole, "div".toList, .arithmetic .div),
    (.whole, "rdiv".toList, .arithmetic .rem),
    (.whole, "sin".toList, .wave .sin),
    (.whole, "cos".toList, .wave .cos),
    (.whole, "run".toList, .formula),
    (.whole, "break".toList, .breakOff),
    (.whole, "mul".toList, .arithmetic .mul),
    (.bare, "if".toList, .ifTrue),
    (.bare, "repeat".toList, .repeatTimes),
    (.bare, "while".toList, .whileTrue),
    (.bare, "def".toList, .defFunction),
    (.bare, "class".toList, .defClass),
    (.whole, "append".toList, .append),
    (.whole, "convert".toList, .convert),
    (.whole, "type".toList, .tagOf),
    (.whole, "import".toList, .importFile),
    (.whole, "return".toList, .returnValue),
    (.whole, "file".toList, .file),
    (.whole, "random".toList, .random),
    (.whole, "pygame".toList, .screen) ]

def verb? (c : Command) : Option Verb :=
  verbs.findSome? fun (view, word, verb) =>
    if (c.view view).head? = some word then some verb else none

end Command

structure Site where
  ev : Evaluator
  node : Ref .node
  scope : Ref .scope
  file : Text
  command : Command

end CommandScript
