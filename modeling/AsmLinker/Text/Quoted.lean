import AsmLinker.Text.Escape
import AsmLinker.Text.Printing

/-!
# Quoted text

Texts between double quotes and lists of them, as reports show the arguments of the program.
-/

namespace AsmLinker.Text

/-- A character between double quotes: a quote and a backslash behind a backslash, the usual escapes
for NUL, tab and line ends, and everything that does not show by its code point. -/
def quoteChar (c : Char) : String :=
  if c = '\x00' then "\\0"
  else if c = '\t' then "\\t"
  else if c = '\r' then "\\r"
  else if c = '\n' then "\\n"
  else if c = '"' then "\\\""
  else if c = '\\' then "\\\\"
  else if isShown c then c.toString
  else codePointEscape c

/-- A text between double quotes. -/
def quote (s : String) : String :=
  "\"" ++ String.join (s.toList.map quoteChar) ++ "\""

/-- A list of quoted texts between brackets. -/
def quoteList (texts : List String) : String :=
  "[" ++ ", ".intercalate (texts.map quote) ++ "]"

end AsmLinker.Text
