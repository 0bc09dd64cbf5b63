/-!
Text of programs, names and values, as lists of characters: replacing, searching and trimming.
-/
namespace CommandScript

/-- Text is a list of characters; lengths and positions count characters. -/
abbrev Text := List Char

namespace Text

/-- Walks over a text and writes `new` for `part` wherever it begins; `skip` characters of an
occurrence that was already replaced are still to be passed over. -/
def replaceFrom (part new : Text) : Nat → Text → Text
  | _, [] => []
  | skip + 1, _ :: rest => replaceFrom part new skip rest
  | 0, c :: rest =>
    if part.isPrefixOf (c :: rest) then new ++ replaceFrom part new (part.length - 1) rest
    else c :: replaceFrom part new 0 rest

/-- Replaces every occurrence of a non-empty part, from left to right without overlap. -/
def replace (part new text : Text) : Text := replaceFrom part new 0 text

def hasPart (part : Text) : Text → Bool
  | [] => part.isEmpty
  | c :: rest => part.isPrefixOf (c :: rest) || hasPart part rest

/-- The words of a command are the pieces between single spaces, empty pieces included. -/
def words (text : Text) : List Text := text.splitOn ' '

def unwords (parts : List Text) : Text := [' '].intercalate parts

/-- The piece before the first separator, or the whole text. -/
def before (separator : Char) (text : Text) : Text := text.takeWhile (· != separator)

/-- All that follows the first separator; empty when there is none. -/
def after (separator : Char) (text : Text) : Text := (text.dropWhile (· != separator)).drop 1

def compact (text : Text) : Text := text.filter (· != ' ')

def enclose (text : Text) : Text := '"' :: text ++ ['"']

def encloseSingle (text : Text) : Text := '\'' :: text ++ ['\'']

def hexDigits (width n : Nat) : Text :=
  let digits := Nat.toDigits 16 n
  List.replicate (width - digits.length) '0' ++ digits

end Text

/-- A sequence whose elements may each spell a single character: the characters of a text do, and
so do the one-character texts of a list. Quoting and trimming look at sequences in this way. -/
class Spells (α : Type) where
  spells : Char → α → Bool

instance : Spells Char := ⟨fun c d => c == d⟩

namespace Spelled

variable {α : Type} [Spells α]

def isQuote (a : α) : Bool := Spells.spells '"' a || Spells.spells '\'' a

/-- Whether the first and the last element are the same quote character. A single quote
character is both at once. -/
def isQuoted (s : List α) : Bool :=
  match s.head?, s.getLast? with
  | some a, some z =>
    (Spells.spells '"' a && Spells.spells '"' z) || (Spells.spells '\'' a && Spells.spells '\'' z)
  | _, _ => false

def inner (s : List α) : List α := (s.drop 1).dropLast

def dropQuotes (s : List α) : List α :=
  let s := match s with
    | a :: rest => if isQuote a then rest else s
    | [] => s
  match s.getLast? with
  | some z => if isQuote z then s.dropLast else s
  | none => s

def dropSpaces (s : List α) : List α := s.dropWhile (Spells.spells ' ')

def trimSpaces (s : List α) : List α :=
  ((dropSpaces s).reverse.dropWhile (Spells.spells ' ')).reverse

def leadingSpaces (s : List α) : Nat := (s.takeWhile (Spells.spells ' ')).length

end Spelled

end CommandScript
