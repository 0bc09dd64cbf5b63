/-!
The ways in which running something can fail.
-/
namespace CommandScript

/-- The cause of a failure. A fault ends the run it arises in, unless the rule that meets it says
that it is passed over. -/
inductive Fault where
  /-- an operation met a kind of value that it is not defined for -/
  | wrongKind
  /-- a value of the right kind that has no meaning there, such as a text that is no numeral -/
  | badValue
  /-- a word, an argument or an element that is not there -/
  | badIndex
  /-- a table without the key asked for -/
  | missingKey
  /-- a value without the part asked for: no members, no content, no elements to append to -/
  | missingPart
  /-- division or remainder by zero -/
  | zeroDivision
  /-- a number too large for a float or for a character code -/
  | overflow
  /-- nesting beyond the limit -/
  | tooDeep
  /-- a line was asked for at the end of the input -/
  | endOfInput
  /-- no such file or directory -/
  | fileNotFound
  /-- a directory where a file is needed -/
  | isDirectory
  /-- a file where a directory is needed -/
  | notDirectory
  /-- a formula that does not follow the grammar -/
  | badFormula
  /-- a formula with a name that nothing defines -/
  | unknownName
  /-- a value was taken from an empty stack -/
  | emptyStack
  /-- the other side closed the session -/
  | hangUp
  /-- a loop went on beyond the number of rounds allowed -/
  | unfinished
deriving DecidableEq, Repr

end CommandScript
