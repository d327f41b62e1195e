import PatternAutomata.Automaton.Anchor

/-!
# Patterns

The syntax tree of a pattern. A group with a capture index reports the text that it matched; one
without only groups.
-/
namespace PatternAutomata

/-- How often the body of a repetition is to be matched. -/
inductive Repetition where
  | optional
  | star
  | plus
  /-- At least `min` times, and at most `max` times if that is given. -/
  | counted (min : Nat) (max : Option Nat)
  deriving DecidableEq, Repr, Inhabited

/-- One member of a set in brackets. -/
inductive SetItem where
  | char (c : Char)
  | range (lo hi : Char)
  | charClass (k : CharClass)
  deriving DecidableEq, Repr, Inhabited

inductive Pattern where
  /-- Any one of the branches; earlier ones are preferred. -/
  | alternation (branches : List Pattern)
  | sequence (items : List Pattern)
  /-- A greedy repetition prefers more rounds, any other one fewer. -/
  | repeated (body : Pattern) (times : Repetition) (greedy : Bool)
  | group (capture : Option Nat) (body : Pattern)
  | anchor (a : Anchor)
  | char (c : Char)
  | charClass (k : CharClass)
  | set (negated : Bool) (items : List SetItem)
  deriving Repr, Inhabited

namespace Pattern

/-- The pattern that matches exactly the given text. -/
def ofText (text : String) : Pattern :=
  .sequence (text.toList.map .char)

mutual

/-- The capture indices of the groups, each group before those inside it. -/
def captures : Pattern → List Nat
  | alternation branches => capturesAll branches
  | sequence items => capturesAll items
  | repeated body _ _ => body.captures
  | group capture body => capture.toList ++ body.captures
  | anchor _ | char _ | charClass _ | set _ _ => []

def capturesAll : List Pattern → List Nat
  | [] => []
  | p :: rest => p.captures ++ capturesAll rest

end

end Pattern

end PatternAutomata
