import PatternAutomata.Automaton.Basic

/-!
# Paths of a search

A path is the run of visits that leads from the start of a search to where it stands. Between two
visits that follow each other lies the text consumed: nothing, or one character.
-/
namespace PatternAutomata

/-- A state, and the offset at which it is entered. -/
structure Visit where
  state : Nat
  offset : Nat
  deriving DecidableEq, Repr, Inhabited

structure Path where
  last : Visit
  /-- The visits before the last one, the latest first. -/
  earlier : List Visit := []
  deriving DecidableEq, Repr, Inhabited

namespace Path

/-- The path with one more visit. -/
def extend (p : Path) (v : Visit) : Path :=
  ⟨v, p.last :: p.earlier⟩

/-- All visits, from the first to the last. -/
def visits (p : Path) : List Visit :=
  (p.last :: p.earlier).reverse

/-- How many visits precede the last one. -/
def depth (p : Path) : Nat :=
  p.earlier.length

/-- The offset of the first visit. -/
def start (p : Path) : Nat :=
  (p.earlier.getLastD p.last).offset

/-- The offset of the last visit. -/
def stop (p : Path) : Nat :=
  p.last.offset

def states (p : Path) : List Nat :=
  p.visits.map (·.state)

def offsets (p : Path) : List Nat :=
  p.visits.map (·.offset)

/-- The text from the first visit to the last. -/
def matched? (p : Path) (text : String) : Option String :=
  Text.slice? text p.start p.stop

/-- The text consumed between each two visits that follow each other. -/
def consumed? (p : Path) (text : String) : Option (List String) :=
  (p.offsets.zip p.offsets.tail).mapM fun (start, stop) => Text.slice? text start stop

end Path

end PatternAutomata
