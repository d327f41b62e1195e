import PatternAutomata.Text.Printable
import PatternAutomata.Text.Visible

/-!
# Quoted characters and strings

The quoted form of a character or string escapes its own quote, the backslash, the usual controls
and every character that could not be told apart when printed.
-/
namespace PatternAutomata.Text

/-- One character as it stands between a pair of `quote`s. -/
def escapedIn (quote : Char) (c : Char) : String :=
  match c with
  | '\x00' => "\\0"
  | '\t' => "\\t"
  | '\n' => "\\n"
  | '\r' => "\\r"
  | '\\' => "\\\\"
  | c =>
    if c = quote then "\\" ++ c.toString
    else if isGraphemeExtend c || isIgnorable c || !isPrintable c then codeEscape c
    else c.toString

def quotedChar (c : Char) : String :=
  "'" ++ escapedIn '\'' c ++ "'"

def quotedString (s : String) : String :=
  "\"" ++ String.join (s.toList.map (escapedIn '"')) ++ "\""

end PatternAutomata.Text
