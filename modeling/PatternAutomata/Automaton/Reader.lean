import PatternAutomata.Automaton.Basic
import PatternAutomata.Text.Decimal
import PatternAutomata.Text.Line

/-!
# Reading listings

A listing is read line by line. Blank lines and lines that begin with `#` are passed over. A
`states:` line starts an automaton anew; `final:` and `rules:` need one, and after `rules:` all
other lines are rules.

A rule is `source->target`, a blank, and labels parted by single blanks. A blank is itself a label,
recognized by standing where a label should begin.

## Main definitions

* `Label.ofText?` — reads one label.
* `readLabels` — cuts the end of a rule into labels.
* `Automaton.ofListing` — reads a listing.
-/
namespace PatternAutomata

/-- Why a listing cannot be read. Lines count from 1. -/
inductive ListingError where
  | unsupportedType (line : Nat) (found : String)
  | invalidStateCount (line : Nat) (text : String)
  | statesNotDeclared (line : Nat)
  | stateOutOfRange (line id count : Nat)
  | malformed (line : Nat) (text : String)
  | unknownLabel (line : Nat) (label : String)
  /-- There is no room for so many states. -/
  | tooManyStates (line count : Nat)
  | noStates
  deriving DecidableEq, Repr

def ListingError.message : ListingError → String
  | unsupportedType line found =>
    "line " ++ toString line ++ ": unsupported automaton type `" ++ found ++ "`"
  | invalidStateCount line text =>
    "line " ++ toString line ++ ": invalid state count `" ++ text ++ "`"
  | statesNotDeclared line =>
    "line " ++ toString line ++ ": `states` must precede `final` and `rules`"
  | stateOutOfRange line id count =>
    "line " ++ toString line ++ ": state " ++ toString id ++ " is out of range (0.." ++
      toString count ++ ")"
  | malformed line text => "line " ++ toString line ++ ": cannot parse `" ++ text ++ "`"
  | unknownLabel line label => "line " ++ toString line ++ ": unknown label `" ++ label ++ "`"
  | tooManyStates line count =>
    "line " ++ toString line ++ ": no room for " ++ toString count ++ " states"
  | noStates => "missing `states` declaration"

/-- The label that a backslash and the letter stand for. -/
def Label.ofEscape? : Char → Option Label
  | 'e' => some (.epsilon none)
  | '^' => some (.epsilon (some .start))
  | '$' => some (.epsilon (some .finish))
  | 'b' => some (.epsilon (some .wordBoundary))
  | 'B' => some (.epsilon (some .notWordBoundary))
  | c => (CharClass.ofLetter? c).map .charClass

/-- Reads the text of a label. -/
def Label.ofText? : List Char → Option Label
  | [c] => some (.char c)
  | [backslash, c] => if backslash = '\\' then ofEscape? c else none
  | [lo, dash, hi] => if dash = '-' ∧ lo ≤ hi then some (.range lo hi) else none
  | _ => none

namespace Automaton

/-- What precedes the first blank, and what follows it. -/
def cutAtBlank (cs : List Char) : List Char × List Char :=
  (cs.takeWhile (· ≠ ' '), (cs.dropWhile (· ≠ ' ')).drop 1)

/-- What precedes the first arrow, and what follows it. -/
def cutAtArrow? : List Char → Option (List Char × List Char)
  | [] => none
  | '-' :: '>' :: rest => some ([], rest)
  | c :: rest => (cutAtArrow? rest).map fun (before, after) => (c :: before, after)

theorem length_cutAtBlank_snd_le (cs : List Char) : (cutAtBlank cs).2.length ≤ cs.length := by
  have := (List.dropWhile_suffix (l := cs) (fun c => decide (c ≠ ' '))).length_le
  simp only [cutAtBlank, List.length_drop]
  omega

/-- Reads labels parted by single blanks. A blank where a label should begin is a label; it has to
be followed by a parting blank or by nothing. -/
def readLabels (line : Nat) (malformed : ListingError) :
    List Char → Except ListingError (List Label)
  | [] => .ok []
  | [' '] => .ok [.char ' ']
  | ' ' :: ' ' :: rest => do return .char ' ' :: (← readLabels line malformed rest)
  | ' ' :: _ :: _ => .error malformed
  | c :: rest => do
    match Label.ofText? (c :: (cutAtBlank rest).1) with
    | none => .error (.unknownLabel line (String.ofList (c :: (cutAtBlank rest).1)))
    | some label => return label :: (← readLabels line malformed (cutAtBlank rest).2)
termination_by cs => cs.length
decreasing_by
  · simp only [List.length_cons]; omega
  · have := length_cutAtBlank_snd_le rest
    simp only [List.length_cons]; omega

/-- Reads the id of a state of `a`. -/
def readState (a : Automaton) (line : Nat) (token : List Char) : Except ListingError Nat :=
  match Text.unsigned? 0x1_0000_0000_0000_0000 (Text.trim token) with
  | none => .error (.malformed line (String.ofList token))
  | some id =>
    if id < a.stateCount then .ok (stateId id)
    else .error (.stateOutOfRange line id a.stateCount)

/-- The automaton with the edges of one rule added. -/
def readRule (a : Automaton) (line : Nat) (content : List Char) : Except ListingError Automaton :=
  let malformed := .malformed line (String.ofList content)
  match cutAtArrow? content with
  | none => .error malformed
  | some (source, rest) => do
    let (target, labels) := cutAtBlank rest
    if source.isEmpty || target.isEmpty then .error malformed
    let source ← a.readState line source
    let target ← a.readState line target
    let labels ← if labels.isEmpty then .ok [.epsilon none] else readLabels line malformed labels
    return labels.foldl (fun a label => a.addEdge source label target .last) a

/-- The automaton with the states named on a `final:` line made final. -/
def readFinals (a : Automaton) (line : Nat) (rest : List Char) : Except ListingError Automaton :=
  (Text.words rest).foldlM (fun a token => return a.setFinal (← a.readState line token)) a

/-- What has been read so far: the automaton, once its states are declared, and whether the
lines to come are rules. -/
structure Draft where
  automaton : Option Automaton := none
  inRules : Bool := false

namespace Draft

def declared (d : Draft) (line : Nat) : Except ListingError Automaton :=
  match d.automaton with
  | none => .error (.statesNotDeclared line)
  | some a => .ok a

/-- Reads a `states:` line. -/
def readCount (line : Nat) (rest : List Char) : Except ListingError Automaton :=
  match Text.unsigned? 0x1_0000_0000_0000_0000 (Text.trim rest) with
  | some (count + 1) =>
    match ofCount? (count + 1) {} with
    | some a => .ok a
    | none => .error (.tooManyStates line (count + 1))
  | _ => .error (.invalidStateCount line (String.ofList (Text.trim rest)))

/-- Reads a line that is neither blank nor a comment. -/
def readLine (d : Draft) (line : Nat) (content : List Char) : Except ListingError Draft :=
  if let some rest := List.isPrefixOf? "type:".toList content then
    let found := Text.trim rest
    if found = "nfa".toList then .ok d
    else .error (.unsupportedType line (String.ofList found))
  else if let some rest := List.isPrefixOf? "states:".toList content then do
    return { automaton := some (← readCount line rest) }
  else if let some rest := List.isPrefixOf? "final:".toList content then do
    let a ← d.declared line
    return { automaton := some (← a.readFinals line rest) }
  else if "rules:".toList.isPrefixOf content then do
    let a ← d.declared line
    return { automaton := some a, inRules := true }
  else if d.inRules then do
    let a ← d.declared line
    return { automaton := some (← a.readRule line content), inRules := true }
  else .error (.malformed line (String.ofList content))

/-- The line without a carriage return at its end. -/
def content (line : List Char) : List Char :=
  if line.getLast? = some '\r' then line.dropLast else line

/-- Reads any line, given with its index. -/
def read (d : Draft) (line : List Char × Nat) : Except ListingError Draft :=
  let text := content line.1
  if (Text.trim text).isEmpty || text.head? = some '#' then .ok d
  else d.readLine (line.2 + 1) text

end Draft

/-- Reads a listing. The automaton has default flags and no groups. -/
def ofListing (text : String) : Except ListingError Automaton := do
  let d ← (Text.lines text.toList).zipIdx.foldlM Draft.read {}
  match d.automaton with
  | none => .error .noStates
  | some a => .ok a

end Automaton

end PatternAutomata
