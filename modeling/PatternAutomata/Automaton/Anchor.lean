import PatternAutomata.CharClass
import PatternAutomata.Text.Offset

/-!
# Anchors

Conditions on a place in the text that consume nothing. Each looks at one character on either
side of the place at most.
-/
namespace PatternAutomata

inductive Anchor where
  | start
  | finish
  | wordBoundary
  | notWordBoundary
  deriving DecidableEq, Repr, Inhabited

namespace Anchor

/-- Whether exactly one side of the place is a word character. -/
def atWordBoundary (text : String) (offset : Nat) : Bool :=
  (Text.charBefore text offset).any isWord != (Text.charAt text offset).any isWord

/-- Whether the condition holds at `offset`. -/
def holds (a : Anchor) (text : String) (offset : Nat) (multiline : Bool) : Bool :=
  match a with
  | start => offset == 0 || (multiline && Text.charBefore text offset == some '\n')
  | finish => offset == text.utf8ByteSize || (multiline && Text.charAt text offset == some '\n')
  | wordBoundary => atWordBoundary text offset
  | notWordBoundary => !atWordBoundary text offset

def symbol : Anchor → Char
  | start => '^'
  | finish => '$'
  | wordBoundary => 'b'
  | notWordBoundary => 'B'

def name : Anchor → String
  | start => "Start"
  | finish => "End"
  | wordBoundary => "WordBoundary"
  | notWordBoundary => "NotWordBoundary"

def ofName? (name : String) : Option Anchor :=
  [start, finish, wordBoundary, notWordBoundary].find? (·.name == name)

theorem ofName?_name (a : Anchor) : ofName? a.name = some a := by
  cases a <;> rfl

end Anchor

end PatternAutomata
