import PatternAutomata.Automaton.Label
import PatternAutomata.Flags

/-!
# Ordered automata

An automaton is a numbered collection of states, each with a list of outgoing edges. The order of
the list is the order in which a search tries the edges. State 0 is where every search starts.

A capture group is recorded by the pairs of states through which its copies are entered and left.

## Main definitions

* `Automaton.single`, `Automaton.addState`, `Automaton.addEdge` — building an automaton.
* `Automaton.edges?`, `Automaton.isFinal`, `Automaton.spansOf` — what a search asks of it.
* `Automaton.danglingIds` — ids that name no state.
* `Automaton.defect?` — what is wrong with an automaton that was built.
-/
namespace PatternAutomata

/-- The id of the state at `index`. Ids are 32-bit words, so past the last word the count starts
again. -/
def stateId (index : Nat) : Nat :=
  index % 0x1_0000_0000

structure Edge where
  label : Label
  target : Nat
  deriving DecidableEq, Repr, Inhabited

/-- The states through which one copy of a group is entered and left. -/
structure GroupSpan where
  entry : Nat
  exit : Nat
  deriving DecidableEq, Repr, Inhabited

/-- A capture group with the spans of its copies, the latest one first. -/
structure Group where
  index : Nat
  spans : List GroupSpan
  deriving DecidableEq, Repr, Inhabited

/-- Where a new edge is put among the edges of its source. -/
inductive Priority where
  | first
  | last
  deriving DecidableEq, Repr, Inhabited

structure Automaton where
  states : Array (List Edge)
  /-- Ids of the final states, ascending. -/
  finals : List Nat := []
  /-- Groups, each index once; groups that are added one by one ascend. -/
  groups : List Group := []
  flags : Flags := {}
  deriving DecidableEq, Repr, Inhabited

/-- What an automaton that was built must not have. -/
inductive Defect where
  | dangling (ids : List Nat)
  /-- There is no final state. -/
  | endless
  /-- A copy of group `index` lies past the `count` states. -/
  | straySpan (index : Nat) (span : GroupSpan) (count : Nat)
  deriving DecidableEq, Repr, Inhabited

/-- Puts `id` into an ascending list that does not have it yet. -/
def insertId (id : Nat) : List Nat → List Nat
  | [] => [id]
  | x :: rest =>
    if id < x then id :: x :: rest
    else if id = x then x :: rest
    else x :: insertId id rest

namespace Group

/-- The groups with `change` applied to the spans of group `index`, which is added if missing. -/
def update (index : Nat) (change : List GroupSpan → List GroupSpan) : List Group → List Group
  | [] => [⟨index, change []⟩]
  | g :: rest =>
    if index < g.index then ⟨index, change []⟩ :: g :: rest
    else if index = g.index then ⟨index, change g.spans⟩ :: rest
    else g :: update index change rest

/-- The groups with `g` in place of the one that has its index, or after them all. -/
def put (g : Group) : List Group → List Group
  | [] => [g]
  | h :: rest => if h.index = g.index then g :: rest else h :: put g rest

end Group

namespace Automaton

/-- `count` states without edges; one state if `count` is 0. -/
def ofCount (count : Nat) (flags : Flags) : Automaton :=
  { states := Array.replicate (max count 1) [], flags }

/-- The most states that there is room for: a state takes 24 bytes, and an array less than
`2 ^ 63`. -/
def maxStates : Nat :=
  0x7fff_ffff_ffff_ffff / 24

/-- `count` states without edges, if there is room for them. -/
def ofCount? (count : Nat) (flags : Flags) : Option Automaton :=
  if count ≤ maxStates then some (ofCount count flags) else none

/-- A single state without edges. -/
def single (flags : Flags) : Automaton :=
  ofCount 1 flags

def stateCount (a : Automaton) : Nat :=
  a.states.size

def hasState (a : Automaton) (id : Nat) : Bool :=
  id < a.stateCount

/-- The edges that leave state `id`, in order of priority. -/
def edges? (a : Automaton) (id : Nat) : Option (List Edge) :=
  a.states[id]?

def isFinal (a : Automaton) (id : Nat) : Bool :=
  a.finals.contains id

def edgeCount (a : Automaton) : Nat :=
  a.states.foldl (fun n edges => n + edges.length) 0

/-- The greatest index of a group, 0 if there are no groups. -/
def groupCount (a : Automaton) : Nat :=
  a.groups.foldl (fun n g => max n g.index) 0

/-- The spans of the copies of group `index`, the latest one first. -/
def spansOf (a : Automaton) (index : Nat) : List GroupSpan :=
  ((a.groups.find? (·.index == index)).map (·.spans)).getD []

/-- Adds a state and gives its id. -/
def addState (a : Automaton) : Nat × Automaton :=
  (stateId a.states.size, { a with states := a.states.push [] })

/-- The edges of a state with one more among them. -/
def insertEdge (edges : List Edge) (edge : Edge) : Priority → List Edge
  | .first => edge :: edges
  | .last => edges ++ [edge]

/-- Adds an edge that leaves `source`; nothing changes if there is no such state. -/
def addEdge (a : Automaton) (source : Nat) (label : Label) (target : Nat)
    (priority : Priority) : Automaton :=
  { a with states := a.states.modify source (insertEdge · ⟨label, target⟩ priority) }

/-- Adds an edge that leaves `source`, if there is such a state. -/
def addEdge? (a : Automaton) (source : Nat) (label : Label) (target : Nat)
    (priority : Priority) : Option Automaton :=
  if a.hasState source then some (a.addEdge source label target priority) else none

/-- Adds an edge that consumes nothing and has no guard. -/
def addEpsilon (a : Automaton) (source target : Nat) (priority : Priority) : Automaton :=
  a.addEdge source (.epsilon none) target priority

def setFinal (a : Automaton) (id : Nat) : Automaton :=
  { a with finals := insertId id a.finals }

/-- Makes sure that there is a group `index`, even one without spans. -/
def declareGroup (a : Automaton) (index : Nat) : Automaton :=
  { a with groups := Group.update index id a.groups }

def addSpan (a : Automaton) (index : Nat) (span : GroupSpan) : Automaton :=
  { a with groups := Group.update index (span :: ·) a.groups }

/-- All ids that edges, final states and group spans mention. -/
def mentionedIds (a : Automaton) : List Nat :=
  a.states.toList.flatMap (·.map (·.target)) ++ a.finals ++
    a.groups.flatMap fun g => g.spans.flatMap fun s => [s.entry, s.exit]

/-- The mentioned ids that name no state, ascending. -/
def danglingIds (a : Automaton) : List Nat :=
  (a.mentionedIds.filter (stateId a.stateCount ≤ ·)).foldl (fun ids id => insertId id ids) []

/-- The first defect: dangling ids before missing final states, and these before the copies of
groups, which are looked at in the order in which they were added. -/
def defect? (a : Automaton) : Option Defect :=
  if a.danglingIds.isEmpty then
    if a.finals.isEmpty then some .endless
    else (a.groups.flatMap fun g => g.spans.reverse.map (g.index, ·)).findSome? fun (index, span) =>
      if a.hasState span.entry && a.hasState span.exit then none
      else some (.straySpan index span a.stateCount)
  else some (.dangling a.danglingIds)

end Automaton

end PatternAutomata
