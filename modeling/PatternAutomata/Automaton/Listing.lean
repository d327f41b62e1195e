import PatternAutomata.Automaton.Basic
import PatternAutomata.Palette

/-!
# Automata as listings

A listing has a line for the number of states, one for the final states, and one for each edge.
Flags and groups are comment lines before them.

```text
# flags: m
# group 1: 1-4
states: 6
final: 5
rules:
0->1 \e
1->2 a
```
-/
namespace PatternAutomata

def GroupSpan.shown (s : GroupSpan) : String :=
  toString s.entry ++ "-" ++ toString s.exit

/-- The comment line of a group, with its spans in the order in which they were added. -/
def Group.shown (g : Group) : String :=
  "# group " ++ toString g.index ++ ": " ++
    if g.spans.isEmpty then "(none)" else " ".intercalate (g.spans.reverse.map (·.shown))

/-- The label, dim if it consumes nothing. -/
def Label.colored (l : Label) (p : Palette) : String :=
  if l.isEpsilon then p.inDim l.shown else p.inGreen l.shown

/-- A state id as listings and traces show it. -/
def Palette.stateId (p : Palette) (id : Nat) : String :=
  p.inBlue (toString id)

namespace Automaton

/-- The line of an edge that leaves `source`. -/
def edgeLine (p : Palette) (source : Nat) (edge : Edge) : String :=
  p.stateId source ++ "->" ++ p.stateId edge.target ++ " " ++ edge.label.colored p

def flagLines (a : Automaton) (p : Palette) : List String :=
  if a.flags = {} then [] else [p.inDim ("# flags: " ++ a.flags.letters)]

def ruleLines (a : Automaton) (p : Palette) : List String :=
  a.states.toList.zipIdx.flatMap fun (edges, index) => edges.map (edgeLine p (stateId index))

def listingLines (a : Automaton) (p : Palette) : List String :=
  a.flagLines p ++ a.groups.map (p.inDim ·.shown) ++
    ["states: " ++ toString a.stateCount,
      "final: " ++ " ".intercalate (a.finals.map p.stateId),
      "rules:"] ++
    a.ruleLines p

/-- The listing of an automaton, every line ended by a line feed. -/
def listing (a : Automaton) (p : Palette) : String :=
  String.join ((a.listingLines p).map (· ++ "\n"))

end Automaton

end PatternAutomata
