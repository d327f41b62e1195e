import PatternAutomata.Search.Limits
import PatternAutomata.Search.Path
import PatternAutomata.Search.Visited

/-!
# The search machine

A search is depth first. The machine holds the paths that are still to be followed, the one to
follow next in front, and in each turn takes up the first of them. If that path ends in a final
state the search is over; otherwise it is extended along the edges of its last state, which puts
the extended paths in front in the order of those edges. Edges that consume nothing are followed
only if they lead to a state not yet entered in that way at the same offset.

## Main definitions

* `Matcher.attempt` — what becomes of an edge at the end of a path.
* `Matcher.follow`, `Matcher.turn` — the machine after an edge, and after a turn.
-/
namespace PatternAutomata

/-- What becomes of an edge that is tried at the end of a path. -/
inductive Attempt where
  /-- The guard does not hold. -/
  | blocked (guard : Anchor)
  /-- The target has been entered at this offset before. -/
  | seen
  /-- There is no character that the label accepts. -/
  | refused
  /-- The target does not exist. -/
  | missing
  /-- The target is entered at the given offset. -/
  | entered (offset : Nat)
  deriving DecidableEq, Repr, Inhabited

structure Machine where
  /-- The paths still to be followed, the next one first. -/
  pending : List Path := []
  visited : Visited
  /-- How many paths have been taken up. A count that stops no lower than the fuel limit does as
  well. -/
  spent : Nat := 0
  deriving Repr, Inhabited

/-- The machine once a path has been taken up and `rest` is left. -/
def Machine.takeUp (machine : Machine) (rest : List Path) : Machine :=
  { machine with pending := rest, spent := machine.spent + 1 }

/-- What a turn of the machine leads to. -/
inductive Turn where
  | halted (result : Except Fault (Option Path))
  | next (machine : Machine)

namespace Limits

/-- Adds a path to the pending ones if there is room for it. -/
def push (l : Limits) (p : Path) (pending : List Path) : Except Fault (List Path) :=
  match l.stack with
  | none => .ok (p :: pending)
  | some limit =>
    if limit ≤ pending.length then .error (.stackExceeded limit) else .ok (p :: pending)

theorem eq_cons_of_push {l : Limits} {p : Path} {pending pending' : List Path}
    (h : l.push p pending = .ok pending') : pending' = p :: pending := by
  grind [push]

/-- The limit that forbids to take up one more path after `spent` ones. -/
def exhausted? (l : Limits) (spent : Nat) : Option Nat :=
  l.fuel.filter (· ≤ spent)

end Limits

namespace Matcher

variable (m : Matcher) (text : String)

/-- What becomes of an edge that consumes nothing, its guard holding. -/
def attemptEpsilon (visited : Visited) (target : Nat) (offset : Nat) : Attempt :=
  if visited.size ≤ target then .missing
  else if visited.contains target offset then .seen
  else .entered offset

/-- What becomes of `edge` after the visit `v`. -/
def attempt (visited : Visited) (v : Visit) (edge : Edge) : Attempt :=
  match edge.label with
  | .epsilon none => attemptEpsilon visited edge.target v.offset
  | .epsilon (some guard) =>
    if guard.holds text v.offset m.automaton.flags.multiline then
      attemptEpsilon visited edge.target v.offset
    else .blocked guard
  | label =>
    match Text.charAt text v.offset with
    | none => .refused
    | some c =>
      if label.accepts c m.automaton.flags.dotAll then .entered (v.offset + c.utf8Size)
      else .refused

/-- The visits made once the target of `edge` is entered at `offset`. -/
def record (visited : Visited) (edge : Edge) (offset : Nat) : Visited :=
  if edge.label.isEpsilon then visited.insert edge.target offset else visited

/-- The machine after trying `edge` at the end of `p`. -/
def follow (p : Path) (machine : Machine) (edge : Edge) : Except Fault Machine :=
  match m.attempt text machine.visited p.last edge with
  | .blocked _ | .seen | .refused => .ok machine
  | .missing => .error (.missingState edge.target)
  | .entered offset =>
    match m.limits.push (p.extend ⟨edge.target, offset⟩) machine.pending with
    | .error fault => .error fault
    | .ok pending =>
      .ok { machine with pending, visited := record machine.visited edge offset }

/-- One turn: takes up the first pending path. -/
def turn (machine : Machine) : Turn :=
  match machine.pending with
  | [] => .halted (.ok none)
  | p :: rest =>
    match m.limits.exhausted? machine.spent with
    | some limit => .halted (.error (.fuelExhausted limit))
    | none =>
      if m.automaton.isFinal p.last.state then .halted (.ok (some p))
      else
        match m.automaton.edges? p.last.state with
        | none => .halted (.error (.missingState p.last.state))
        | some edges =>
          match edges.reverse.foldlM (m.follow text p) (machine.takeUp rest) with
          | .error fault => .halted (.error fault)
          | .ok machine => .next machine

/-- A turn that goes on has tried all edges of the state that the first pending path ends in. -/
theorem turn_eq_next {m : Matcher} {text : String} {machine machine' : Machine}
    (h : m.turn text machine = .next machine') :
    ∃ p rest edges, machine.pending = p :: rest ∧ m.automaton.edges? p.last.state = some edges ∧
      edges.reverse.foldlM (m.follow text p) (machine.takeUp rest) = .ok machine' := by
  unfold turn at h
  repeat' split at h
  all_goals cases h
  exact ⟨_, _, _, ‹_›, ‹_›, ‹_›⟩

/-- The machine at the beginning of a search from `start`. -/
def machineAt (start : Nat) : Except Fault Machine :=
  if m.automaton.stateCount = 0 then .error (.missingState 0)
  else
    match m.limits.push ⟨⟨0, start⟩, []⟩ [] with
    | .error fault => .error fault
    | .ok pending =>
      .ok { pending, visited := (Visited.empty m.automaton.stateCount).insert 0 start }

end Matcher

end PatternAutomata
