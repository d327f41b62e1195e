import PatternAutomata.Search.Exec
import PatternAutomata.Search.Match
import PatternAutomata.Search.Template

/-!
# Scanning a text

A scan tries the beginnings of the characters of a text from left to right. The end of the text is
no beginning, so nothing is found in an empty text. The matches of a text do not overlap: after a
match the scan goes on where it ends, and after an empty one at the next character.

## Main definitions

* `Matcher.find`, `Matcher.findAt`, `Matcher.findAll` — the first match, and all matches.
* `Matcher.replaceAll` — the text with all matches replaced.
-/
namespace PatternAutomata.Matcher

variable (m : Matcher) (text : String)

/-- The match at the first of the given offsets at which the search accepts. -/
def findAmong : List Nat → Except Fault (Option Match)
  | [] => .ok none
  | start :: rest => do
    match ← m.exec text start with
    | none => findAmong rest
    | some p => return some (.ofPath m.automaton text p)

/-- The leftmost match at or after `start`. -/
def findAt (start : Nat) : Except Fault (Option Match) :=
  m.findAmong text ((Text.starts text).dropWhile (· < start))

/-- The leftmost match. -/
def find : Except Fault (Option Match) :=
  m.findAt text 0

def isMatch : Except Fault Bool := do
  return (← m.find text).isSome

/-- The successive matches at the given offsets. -/
def findAllAmong : List Nat → Except Fault (List Match)
  | [] => .ok []
  | start :: rest => do
    match ← m.exec text start with
    | none => findAllAmong rest
    | some p =>
      let more ← findAllAmong (rest.dropWhile (· < p.stop))
      return .ofPath m.automaton text p :: more
termination_by starts => starts.length
decreasing_by
  · simp
  · have := (List.dropWhile_suffix (l := rest) (fun o => decide (o < p.stop))).length_le
    simp only [List.length_cons]
    omega

/-- All matches, from left to right. -/
def findAll : Except Fault (List Match) :=
  m.findAllAmong text (Text.starts text)

/-- Puts the expansion of a template in the place of a match. -/
def spliceMatch (template : Template) (r : Match) (out : String) : Except Fault String :=
  match Text.splice? out r.start r.stop (template.expand r) with
  | some out => .ok out
  | none => .error (.unaligned r.start r.stop)

/-- The text with every match replaced by the expansion of a template. Matches are replaced from
the last to the first, which leaves the offsets of the others valid. -/
def replaceAll (template : String) : Except Fault String := do
  (← m.findAll text).foldrM (spliceMatch (.parse template)) text

end PatternAutomata.Matcher
