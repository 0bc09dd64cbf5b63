import CommandScript.Text.Basic

/-!
Blank characters, in the narrow sense (six characters) and in the wide one (every script's
spaces and separators).
-/
namespace CommandScript.Text

def isNarrowBlank (c : Char) : Bool :=
  c == ' ' || (9 ≤ c.toNat && c.toNat ≤ 13)

/-- The blanks beyond the narrow ones: four separators, the next-line mark, and the spaces and
line separators of other scripts. -/
def wideBlanks : List Nat :=
  [0x1C, 0x1D, 0x1E, 0x1F, 0x85, 0xA0, 0x1680, 0x2000, 0x2001, 0x2002, 0x2003, 0x2004, 0x2005,
   0x2006, 0x2007, 0x2008, 0x2009, 0x200A, 0x2028, 0x2029, 0x202F, 0x205F, 0x3000]

def isBlank (c : Char) : Bool := isNarrowBlank c || wideBlanks.contains c.toNat

def strip (isOut : Char → Bool) (text : Text) : Text :=
  ((text.dropWhile isOut).reverse.dropWhile isOut).reverse

end CommandScript.Text
