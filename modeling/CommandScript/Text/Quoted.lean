import CommandScript.Text.Printable

/-!
The quoted form of a text, as it stands inside a shown list: single quotes unless the text has a
single quote and no double one; the quote, the backslash and what cannot be shown are escaped.
-/
namespace CommandScript.Text

/-- The quote character that needs the fewest escapes, a single quote where both do. -/
def quoteFor (text : Text) : Char :=
  if text.contains '\'' && !text.contains '"' then '"' else '\''

def escaped (quote c : Char) : Text :=
  if c == quote || c == '\\' then ['\\', c]
  else if c == '\n' then ['\\', 'n']
  else if c == '\r' then ['\\', 'r']
  else if c == '\t' then ['\\', 't']
  else if isPrintable c then [c]
  else if c.toNat < 0x100 then '\\' :: 'x' :: hexDigits 2 c.toNat
  else if c.toNat < 0x10000 then '\\' :: 'u' :: hexDigits 4 c.toNat
  else '\\' :: 'U' :: hexDigits 8 c.toNat

def quoted (text : Text) : Text :=
  let quote := quoteFor text
  quote :: text.flatMap (escaped quote) ++ [quote]

example : quoted "it's".toList = "\"it's\"".toList := by decide +kernel
example : quoted "a\nb".toList = "'a\\nb'".toList := by decide +kernel

end CommandScript.Text
