import PatternAutomata.Automaton.Listing
import PatternAutomata.Search.Scan
import PatternAutomata.Text.Quoted

/-!
# Traces of searches

A trace is what a search does, event by event, shown one line for each. Events are read off the
machine before each of its turns, so a traced search goes the way of an untraced one.

## Main definitions

* `Event` — what a search does, and `Event.line?` — how it is shown.
* `Matcher.traceExec`, `Matcher.traceFindAt` — the events of a search, with its result.
-/
namespace PatternAutomata

/-- How much of a search is traced. -/
inductive Verbosity where
  /-- Beginnings and ends of searches and the paths taken up. -/
  | paths
  /-- Also the edges entered, and the guards that do not hold. -/
  | edges
  /-- Also the edges not followed because their target was entered before. -/
  | revisits
  deriving DecidableEq, Repr, Inhabited

inductive Event where
  /-- A search begins at an offset. -/
  | scan (start : Nat)
  /-- A path is taken up. -/
  | pop (path : Path)
  /-- A path is extended along an edge from `source`. -/
  | push (source : Nat) (edge : Edge) (offset : Nat)
  /-- The guard of an edge from `source` does not hold. -/
  | fail (source : Nat) (guard : Anchor) (offset : Nat)
  /-- The state has been entered at this offset before. -/
  | seen (state offset : Nat)
  | accept (path : Path)
  /-- The search that began at `start` finds nothing. -/
  | reject (start : Nat)
  deriving DecidableEq, Repr, Inhabited

namespace Verbosity

def level : Verbosity → Nat
  | paths => 0
  | edges => 1
  | revisits => 2

/-- The least verbosity at which an event is shown. -/
def ofEvent : Event → Verbosity
  | .scan _ | .pop _ | .accept _ | .reject _ => paths
  | .push _ _ _ | .fail _ _ _ => edges
  | .seen _ _ => revisits

/-- Whether the event is shown. -/
def shows (v : Verbosity) (e : Event) : Bool :=
  (ofEvent e).level ≤ v.level

end Verbosity

namespace Event

/-- The character at `offset`, or a dollar sign where there is none. -/
def lookahead (text : String) (offset : Nat) : String :=
  ((Text.charAt text offset).map Text.visible).getD "$"

/-- The line of an event; an accepted path whose text cannot be shown has none. -/
def line? (p : Palette) (text : String) : Event → Option String
  | scan start => some (p.inDim ("scan @" ++ toString start))
  | pop path =>
    some ("  pop " ++ p.stateId path.last.state ++ " @" ++ toString path.stop ++ " #" ++
      toString path.depth ++ " " ++ p.inGreen (lookahead text path.stop))
  | push source edge offset =>
    some ("    push " ++ p.stateId source ++ "->" ++ p.stateId edge.target ++ " " ++
      edge.label.colored p ++ " @" ++ toString offset)
  | fail source guard offset =>
    some ("    fail " ++ p.stateId source ++ " " ++ (Label.epsilon (some guard)).shown ++ " @" ++
      toString offset)
  | seen state offset => some ("    seen " ++ p.stateId state ++ " @" ++ toString offset)
  | accept path => do
    let matched ← path.matched? text
    return "accept " ++ toString path.start ++ ".." ++ toString path.stop ++ " " ++
      p.inGreen (Text.quotedString matched)
  | reject start => some ("reject @" ++ toString start)

/-- The lines of the events that are shown. -/
def lines? (v : Verbosity) (p : Palette) (text : String) (events : List Event) :
    Option (List String) :=
  (events.filter v.shows).mapM (line? p text)

/-- What is traced of an edge tried at the end of a path. -/
def ofAttempt (v : Visit) (edge : Edge) : Attempt → Option Event
  | .blocked guard => some (fail v.state guard v.offset)
  | .seen => some (seen edge.target v.offset)
  | .entered offset => some (push v.state edge offset)
  | .refused | .missing => none

end Event

namespace Matcher

variable (m : Matcher) (text : String)

/-- The events of trying the edges one after the other at the end of `p`. -/
def edgeEvents (p : Path) : Machine → List Edge → List Event
  | _, [] => []
  | machine, edge :: rest =>
    match m.follow text p machine edge with
    | .error _ => []
    | .ok next =>
      (Event.ofAttempt p.last edge (m.attempt text machine.visited p.last edge)).toList ++
        edgeEvents p next rest

/-- The events of a turn in a search that began at `start`. -/
def turnEvents (start : Nat) (machine : Machine) : List Event :=
  match machine.pending with
  | [] => [.reject start]
  | p :: rest =>
    if (m.limits.exhausted? machine.spent).isSome then []
    else if m.automaton.isFinal p.last.state then [.pop p, .accept p]
    else
      .pop p :: m.edgeEvents text p (machine.takeUp rest)
        ((m.automaton.edges? p.last.state).getD []).reverse

/-- Turns the machine until it halts, adding to the events. -/
def traceRun (start : Nat) (machine : Machine) (events : Array Event) :
    Array Event × Except Fault (Option Path) :=
  match _h : m.turn text machine with
  | .halted result => (events.appendList (m.turnEvents text start machine), result)
  | .next machine' =>
    traceRun start machine' (events.appendList (m.turnEvents text start machine))
termination_by m.weight text machine
decreasing_by exact weight_lt_of_turn _h

/-- A search from `start`, adding to the events. -/
def traceExecInto (start : Nat) (events : Array Event) :
    Array Event × Except Fault (Option Path) :=
  match m.machineAt start with
  | .error fault => (events.push (.scan start), .error fault)
  | .ok machine => m.traceRun text start machine (events.push (.scan start))

/-- The events of a search from `start`, with its result. -/
def traceExec (start : Nat) : List Event × Except Fault (Option Path) :=
  let (events, result) := m.traceExecInto text start #[]
  (events.toList, result)

def traceFindAmong (events : Array Event) :
    List Nat → Array Event × Except Fault (Option Match)
  | [] => (events, .ok none)
  | start :: rest =>
    match m.traceExecInto text start events with
    | (events, .error fault) => (events, .error fault)
    | (events, .ok (some p)) => (events, .ok (some (.ofPath m.automaton text p)))
    | (events, .ok none) => traceFindAmong events rest

/-- The events of the searches for the leftmost match at or after `start`, with the match. -/
def traceFindAt (start : Nat) : List Event × Except Fault (Option Match) :=
  let (events, result) :=
    m.traceFindAmong text #[] ((Text.starts text).dropWhile (· < start))
  (events.toList, result)

theorem traceRun_snd (start : Nat) (machine : Machine) (events : Array Event) :
    (m.traceRun text start machine events).2 = m.run text machine := by
  fun_induction traceRun m text start machine events with
  | case1 machine events result h => exact (run_of_halted h).symm
  | case2 machine events next h ih => rw [ih, run_of_next h]

/-- Tracing does not change what a search finds. -/
theorem traceExec_snd (start : Nat) : (m.traceExec text start).2 = m.exec text start := by
  unfold traceExec traceExecInto exec
  cases m.machineAt start with
  | error fault => rfl
  | ok machine => exact traceRun_snd m text start machine _

end Matcher

end PatternAutomata
