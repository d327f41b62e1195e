import PatternAutomata.Automaton.Anchor
import PatternAutomata.CharSet

/-!
# Edge labels

An edge either consumes nothing, possibly under a condition, or consumes one character that its
label accepts.
-/
namespace PatternAutomata

inductive Label where
  /-- Consumes nothing; passable where the guard, if any, holds. -/
  | epsilon (guard : Option Anchor)
  | char (c : Char)
  /-- The characters from `lo` to `hi`, both included. -/
  | range (lo hi : Char)
  | charClass (k : CharClass)
  | set (s : CharSet)
  deriving DecidableEq, Repr, Inhabited

namespace Label

def isEpsilon : Label → Bool
  | epsilon _ => true
  | _ => false

/-- Whether the label consumes `c`; a label that consumes nothing does not. -/
def accepts (l : Label) (c : Char) (dotAll : Bool) : Bool :=
  match l with
  | epsilon _ => false
  | char d => d == c
  | range lo hi => lo ≤ c && c ≤ hi
  | charClass k => k.contains c dotAll
  | set s => s.contains c

def shown : Label → String
  | epsilon none => "\\e"
  | epsilon (some a) => "\\" ++ a.symbol.toString
  | char c => c.toString
  | range lo hi => lo.toString ++ "-" ++ hi.toString
  | charClass k => k.escape
  | set s => s.shown

end Label

end PatternAutomata
