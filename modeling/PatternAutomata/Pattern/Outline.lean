import PatternAutomata.Pattern.Basic
import PatternAutomata.Text.Quoted

/-!
# Outlines of patterns

An outline has one line for each node of a pattern, indented by its depth.
-/
namespace PatternAutomata

def Repetition.shown : Repetition → String
  | optional => "?"
  | star => "*"
  | plus => "+"
  | counted min none => "\x7b" ++ toString min ++ ",\x7d"
  | counted min (some max) =>
    if min = max then "\x7b" ++ toString min ++ "\x7d"
    else "\x7b" ++ toString min ++ "," ++ toString max ++ "\x7d"

def SetItem.shown : SetItem → String
  | char c => Text.quotedChar c
  | range lo hi => Text.quotedChar lo ++ "-" ++ Text.quotedChar hi
  | charClass k => k.written

namespace Pattern

/-- A line `depth` levels deep. -/
def outlineLine (depth : Nat) (text : String) : String :=
  String.ofList (List.replicate (2 * depth) ' ') ++ text ++ "\n"

def groupTitle : Option Nat → String
  | some index => "Group #" ++ toString index
  | none => "Group (?:)"

mutual

/-- The lines of a pattern that stands `depth` levels deep. -/
def linesAt (depth : Nat) : Pattern → List String
  | alternation branches => outlineLine depth "Alternation" :: linesOfAll (depth + 1) branches
  | sequence items => outlineLine depth "Sequence" :: linesOfAll (depth + 1) items
  | repeated body times greedy =>
    outlineLine depth ("Quantified " ++ times.shown ++ if greedy then "" else " lazy") ::
      body.linesAt (depth + 1)
  | group capture body => outlineLine depth (groupTitle capture) :: body.linesAt (depth + 1)
  | anchor a => [outlineLine depth ("Anchor " ++ a.name)]
  | char c => [outlineLine depth ("Literal " ++ Text.quotedChar c)]
  | charClass k => [outlineLine depth ("Class " ++ k.written)]
  | set negated items =>
    [outlineLine depth
      ("Set" ++ (if negated then " ^" else "") ++ String.join (items.map (" " ++ ·.shown)))]

def linesOfAll (depth : Nat) : List Pattern → List String
  | [] => []
  | p :: rest => p.linesAt depth ++ linesOfAll depth rest

end

def outline (p : Pattern) : String :=
  String.join (p.linesAt 0)

end Pattern

end PatternAutomata
