/-!
# Characters made visible

Traces and sets show single characters; blanks and control characters are shown by escapes.
-/
namespace PatternAutomata.Text

/-- `\u` with the code point in lower-case hexadecimal between braces. -/
def codeEscape (c : Char) : String :=
  "\\u\x7b" ++ String.ofList (Nat.toDigits 16 c.toNat) ++ "\x7d"

/-- The control characters of ASCII and of the block after it. -/
def isControl (c : Char) : Bool :=
  c.toNat < 0x20 || (0x7f ≤ c.toNat && c.toNat < 0xa0)

/-- The character itself, or an escape for one that would not be seen. -/
def visible : Char → String
  | '\n' => "\\n"
  | '\r' => "\\r"
  | '\t' => "\\t"
  | '\x0b' => "\\v"
  | '\x0c' => "\\f"
  | ' ' => "' '"
  | c => if isControl c then codeEscape c else c.toString

end PatternAutomata.Text
