import AsmLinker.Text.Numeral

/-!
# Escaped characters

How a message shows a single character so that it stays readable whatever it is.
-/

namespace AsmLinker.Text

/-- The code point of a character between braces, as in `\u` followed by `7f` in braces. -/
def codePointEscape (c : Char) : String :=
  "\\u\x7b" ++ Numeral.hexLower c.toNat ++ "\x7d"

/-- Tab, line ends, quotes and the backslash by their usual escapes, other printing ASCII as it is,
and everything else by its code point. -/
def escapeChar (c : Char) : String :=
  if c = '\t' then "\\t"
  else if c = '\r' then "\\r"
  else if c = '\n' then "\\n"
  else if c = '\'' then "\\'"
  else if c = '"' then "\\\""
  else if c = '\\' then "\\\\"
  else if ' ' ≤ c ∧ c ≤ '~' then c.toString
  else codePointEscape c

end AsmLinker.Text
