import PatternAutomata.Automaton.Basic
import PatternAutomata.Search.Path
import PatternAutomata.Text.Offset

/-!
# Matches

A match is a byte range of a text, with one more range for each capture group that took part. The
range of a group is read off the accepted path: from the last visit to the entry of one of its
copies to the next visit to the exit of that copy.
-/
namespace PatternAutomata

/-- A byte range, `stop` excluded. -/
structure Span where
  start : Nat
  stop : Nat
  deriving DecidableEq, Repr, Inhabited

structure Match where
  text : String
  whole : Span
  /-- The ranges of groups 1, 2 and so on. -/
  groups : List (Option Span)
  deriving DecidableEq, Repr, Inhabited

/-- The range from the last visit to the entry of `g` to the first visit to its exit from then
on. -/
def Path.locate (p : Path) (g : GroupSpan) : Option Span :=
  let latestFirst := p.last :: p.earlier
  match latestFirst.dropWhile (·.state != g.entry) with
  | [] => none
  | entry :: _ =>
    let after := (latestFirst.takeWhile (·.state != g.entry)).reverse
    ((entry :: after).find? (·.state == g.exit)).map fun exit => ⟨entry.offset, exit.offset⟩

namespace Match

/-- The match that an accepted path stands for. Of the copies of a group, the latest one on the
path counts. -/
def ofPath (a : Automaton) (text : String) (p : Path) : Match where
  text
  whole := ⟨p.start, p.stop⟩
  groups := (List.range' 1 a.groupCount).map fun index => (a.spansOf index).findSome? p.locate

def start (r : Match) : Nat :=
  r.whole.start

def stop (r : Match) : Nat :=
  r.whole.stop

/-- All ranges, that of the whole match first. -/
def spans (r : Match) : List (Option Span) :=
  some r.whole :: r.groups

/-- The range of group `index`; group 0 is the whole match. -/
def span? (r : Match) (index : Nat) : Option Span :=
  (r.spans[index]?).join

/-- The text of group `index`, if it took part in the match. -/
def group? (r : Match) (index : Nat) : Option String :=
  (r.span? index).bind fun s => Text.slice? r.text s.start s.stop

end Match

end PatternAutomata
