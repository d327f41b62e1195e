/-!
# Diagnostics

What is wrong with a pattern, and which bytes of it are to blame.
-/
namespace PatternAutomata

inductive Mistake where
  | unclosedGroup
  | unclosedSet
  | unmatchedParen
  | nothingToRepeat
  | danglingBackslash
  | boundsOutOfOrder
  | boundTooLarge
  | rangeOutOfOrder
  | nonAsciiInSet
  deriving DecidableEq, Repr, Inhabited

def Mistake.message : Mistake → String
  | unclosedGroup => "missing closing `)`"
  | unclosedSet => "missing closing `]`"
  | unmatchedParen => "unmatched `)`"
  | nothingToRepeat => "quantifier has nothing to repeat"
  | danglingBackslash => "pattern ends with a lone `\\`"
  | boundsOutOfOrder => "quantifier bounds out of order"
  | boundTooLarge => "quantifier bound exceeds 1000"
  | rangeOutOfOrder => "character range out of order"
  | nonAsciiInSet => "character sets only hold ASCII characters"

/-- A mistake with the byte range that shows it, `stop` excluded. -/
structure Diagnostic where
  mistake : Mistake
  start : Nat
  stop : Nat
  message : String
  deriving DecidableEq, Repr, Inhabited

namespace Diagnostic

/-- A diagnostic with the usual message for its mistake. -/
def ofMistake (mistake : Mistake) (start stop : Nat) : Diagnostic :=
  ⟨mistake, start, stop, mistake.message⟩

def shown (d : Diagnostic) : String :=
  "error at " ++ toString d.start ++ ".." ++ toString d.stop ++ ": " ++ d.message

end Diagnostic

end PatternAutomata
