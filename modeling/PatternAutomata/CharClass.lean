/-!
# Named character classes

A class is a set of characters with a one-letter name: digits, spaces, word characters, their
complements, and the class of everything but line ends. All of them treat the characters outside
ASCII alike.
-/
namespace PatternAutomata

/-- `0` to `9`. -/
def isDigit (c : Char) : Bool :=
  '0' ≤ c && c ≤ '9'

/-- Blank, form feed, line feed, carriage return, tab and vertical tab. -/
def isSpace (c : Char) : Bool :=
  c == ' ' || c == '\x0c' || c == '\n' || c == '\r' || c == '\t' || c == '\x0b'

/-- ASCII letters and digits and the underscore. -/
def isWord (c : Char) : Bool :=
  c == '_' || isDigit c || ('a' ≤ c && c ≤ 'z') || ('A' ≤ c && c ≤ 'Z')

inductive CharClass where
  | digit | notDigit
  | space | notSpace
  | word | notWord
  | any
  deriving DecidableEq, Repr, Inhabited

namespace CharClass

def ofLetter? : Char → Option CharClass
  | 'd' => some digit
  | 'D' => some notDigit
  | 's' => some space
  | 'S' => some notSpace
  | 'w' => some word
  | 'W' => some notWord
  | '.' => some any
  | _ => none

def letter : CharClass → Char
  | digit => 'd'
  | notDigit => 'D'
  | space => 's'
  | notSpace => 'S'
  | word => 'w'
  | notWord => 'W'
  | any => '.'

def name : CharClass → String
  | digit => "Digit"
  | notDigit => "NotDigit"
  | space => "Space"
  | notSpace => "NotSpace"
  | word => "Word"
  | notWord => "NotWord"
  | any => "Any"

def ofName? (name : String) : Option CharClass :=
  [digit, notDigit, space, notSpace, word, notWord, any].find? (·.name == name)

/-- Whether the class is the complement of a listed set of ASCII characters. -/
def isComplement : CharClass → Bool
  | notDigit | notSpace | notWord => true
  | digit | space | word | any => false

/-- Membership; with `dotAll` the class `any` has the line ends as well. -/
def contains (k : CharClass) (c : Char) (dotAll : Bool) : Bool :=
  match k with
  | digit => isDigit c
  | notDigit => !isDigit c
  | space => isSpace c
  | notSpace => !isSpace c
  | word => isWord c
  | notWord => !isWord c
  | any => dotAll || (c != '\n' && c != '\r')

/-- The escape `\d` for digits and likewise for the other letters. -/
def escape (k : CharClass) : String :=
  "\\" ++ k.letter.toString

/-- How the class is written in a pattern: the bare dot for `any`, an escape for the others. -/
def written : CharClass → String
  | any => "."
  | k => k.escape

theorem ofLetter?_letter (k : CharClass) : ofLetter? k.letter = some k := by
  cases k <;> rfl

theorem ofName?_name (k : CharClass) : ofName? k.name = some k := by
  cases k <;> rfl

end CharClass

end PatternAutomata
