import PatternAutomata.Automaton.Basic

/-!
# Limits and faults of a search

A matcher searches texts with an automaton, under limits on each search. A search that finds
nothing is no fault. A fault is a limit that was hit, or something that an automaton or a match
refers to and that does not exist.
-/
namespace PatternAutomata

/-- Bounds on one search; a bound that is not given does not apply. -/
structure Limits where
  /-- How many visits may be taken up. -/
  fuel : Option Nat := none
  /-- How many visits may be pending at once. -/
  stack : Option Nat := none
  deriving DecidableEq, Repr, Inhabited

structure Matcher where
  automaton : Automaton
  limits : Limits := {}
  deriving Repr, Inhabited

inductive Fault where
  | fuelExhausted (limit : Nat)
  | stackExceeded (limit : Nat)
  /-- An id that names no state was to be visited. -/
  | missingState (id : Nat)
  /-- A byte range does not lie on character boundaries. -/
  | unaligned (start stop : Nat)
  deriving DecidableEq, Repr, Inhabited

def Fault.message : Fault → String
  | fuelExhausted limit => "runtime execution limit of " ++ toString limit ++ " steps exceeded"
  | stackExceeded limit => "backtracking stack limit of " ++ toString limit ++ " frames exceeded"
  | missingState id => "state " ++ toString id ++ " does not exist"
  | unaligned start stop =>
    "bytes " ++ toString start ++ ".." ++ toString stop ++ " are not on character boundaries"

end PatternAutomata
