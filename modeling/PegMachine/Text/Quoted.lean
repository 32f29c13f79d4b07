import PegMachine.Text.Glyphless
import PegMachine.Text.Hex

/-!
# Quoted characters and strings

Trees and descriptions of patterns show characters in single quotes and names in double quotes.  In
both, a backslash starts an escape: there are short escapes for NUL, tab, carriage return, line feed
and the backslash itself, the enclosing quote is escaped too, and a character that has no glyph of
its own is written by its code point, `\u{7f}`.
-/

set_option autoImplicit false

namespace PegMachine.Text

/-- The character as it stands between two marks `quote`. -/
def escape (quote c : Char) : String :=
  if c = '\x00' then "\\0"
  else if c = '\t' then "\\t"
  else if c = '\r' then "\\r"
  else if c = '\n' then "\\n"
  else if c = '\\' ∨ c = quote then String.ofList ['\\', c]
  else if glyphless c then "\\u\x7b" ++ hex c.toNat ++ "\x7d"
  else c.toString

/-- A character in single quotes. -/
def quotedChar (c : Char) : String := "'" ++ escape '\'' c ++ "'"

/-- A string in double quotes. -/
def quoted (s : String) : String := "\"" ++ String.join (s.toList.map (escape '"')) ++ "\""

end PegMachine.Text
