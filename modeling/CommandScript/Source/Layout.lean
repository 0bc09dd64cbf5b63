import CommandScript.Text.Basic

/-!
The flat form of a source text: one line, commands ended by semicolons, blocks opened by the
command before them and closed by the word `endblock`, comparisons without spaces.
-/
namespace CommandScript.Layout

def closing : Text := "endblock".toList

/-- The replacements that flatten a source text, in the order in which they are made. -/
def replacements : List (Text × Text) :=
  [ ("\n".toList, []),
    ("    ".toList, []), ("   ".toList, []), ("  ".toList, []),
    (" \x7b".toList, ";".toList), ("\x7b".toList, ";".toList),
    ("\x7d".toList, closing ++ ";".toList),
    (" == ".toList, "==".toList), (" != ".toList, "!=".toList),
    (" > ".toList, ">".toList), (" < ".toList, "<".toList) ]

def flatten (source : Text) : Text :=
  replacements.foldl (fun text (part, new) => Text.replace part new text) source

end CommandScript.Layout
