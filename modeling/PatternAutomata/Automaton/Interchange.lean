import PatternAutomata.Automaton.Basic
import PatternAutomata.Json.Value

/-!
# Automata in JSON

An automaton can be given as JSON. A record is an object whose members are known by name, or an
array of just its members in order; an object may have other members too, but none of the known
ones twice. A choice is an object with one member, named for what is chosen; where nothing goes
with the choice, the bare name will do, and so will a member that is null.

Ids need not name a state, and groups may come in any order. Of two groups with one index the
second counts.

## Main definitions

* `Json.Value.record?`, `Json.Value.choice?`, `Json.Value.bare?` — records and choices.
* `Label.ofJson?`, `Automaton.ofJson?` — what they read.
-/
namespace PatternAutomata

namespace Json.Value

def bool? : Value → Option Bool
  | bool b => some b
  | _ => none

/-- A number below `bound`. -/
def below? (bound : Nat) : Value → Option Nat
  | number (some n) => if n < bound then some n else none
  | _ => none

def items? : Value → Option (List Value)
  | array items => some items
  | _ => none

def char? : Value → Option Char
  | string written =>
    match unescape? written with
    | some [c] => some c
    | _ => none
  | _ => none

def name? (written : List Char) : Option String :=
  (unescape? written).map String.ofList

/-- The values of the members with the given names. -/
def record? (names : List String) : Value → Option (List Value)
  | array items => if items.length = names.length then some items else none
  | object members => do
    let members ← members.mapM fun (written, v) => return (← name? written, v)
    names.mapM fun name =>
      match members.filter (·.1 == name) with
      | [(_, v)] => some v
      | _ => none
  | _ => none

/-- A choice that has something with it: its name and the value given. -/
def choice? : Value → Option (String × Value)
  | object [(written, v)] => (name? written).map (·, v)
  | _ => none

/-- The name of a choice that has nothing with it. -/
def bare? : Value → Option String
  | string written => name? written
  | object [(written, null)] => name? written
  | _ => none

end Json.Value

open Json (Value)

def CharSet.ofValue? (v : Value) : Option CharSet := do
  match ← v.record? ["ascii", "other", "negated"] with
  | [words, other, negated] =>
    match ← words.items? with
    | [low, high] =>
      let low ← low.below? 0x1_0000_0000_0000_0000
      let high ← high.below? 0x1_0000_0000_0000_0000
      return .ofWords (.ofNat low) (.ofNat high)
        (← other.bool?) (← negated.bool?)
    | _ => none
  | _ => none

def Anchor.ofValue? (v : Value) : Option Anchor :=
  v.bare?.bind ofName?

def Label.ofValue? (v : Value) : Option Label := do
  match ← v.choice? with
  | ("Epsilon", .null) => return .epsilon none
  | ("Epsilon", v) => return .epsilon (some (← Anchor.ofValue? v))
  | ("Literal", v) => return .char (← v.char?)
  | ("Range", .array [lo, hi]) => return .range (← lo.char?) (← hi.char?)
  | ("Class", v) => return .charClass (← v.bare?.bind CharClass.ofName?)
  | ("Set", v) => return .set (← CharSet.ofValue? v)
  | _ => none

def Label.ofJson? (text : String) : Option Label :=
  (Value.ofText? text).bind ofValue?

/-- An id is a 32-bit word. -/
def idOfValue? (v : Value) : Option Nat :=
  v.below? 0x1_0000_0000

def Edge.ofValue? (v : Value) : Option Edge := do
  match ← v.record? ["kind", "target"] with
  | [kind, target] => return ⟨← Label.ofValue? kind, ← idOfValue? target⟩
  | _ => none

def GroupSpan.ofValue? (v : Value) : Option GroupSpan := do
  match ← v.record? ["entry", "exit"] with
  | [entry, exit] => return ⟨← idOfValue? entry, ← idOfValue? exit⟩
  | _ => none

def Flags.ofValue? (v : Value) : Option Flags := do
  match ← v.record? ["multiline", "dotall"] with
  | [multiline, dotAll] => return { multiline := ← multiline.bool?, dotAll := ← dotAll.bool? }
  | _ => none

/-- The index that names a group: a 32-bit word in decimal digits, written without escapes. -/
def Group.indexOf? (written : List Char) : Option Nat := do
  match ← Json.number? written with
  | (some index, length) =>
    guard (length = written.length && index < 0x1_0000_0000)
    return index
  | _ => none

/-- The groups of an object, from index to spans. -/
def Group.listOfValue? : Value → Option (List Group)
  | .object members =>
    members.foldlM (fun groups (written, v) => do
      let spans ← (← v.items?).mapM GroupSpan.ofValue?
      return Group.put ⟨← indexOf? written, spans.reverse⟩ groups) []
  | _ => none

namespace Automaton

/-- The edges of a state. -/
def edgesOfValue? (v : Value) : Option (List Edge) := do
  match ← v.record? ["transitions"] with
  | [edges] => (← edges.items?).mapM Edge.ofValue?
  | _ => none

def ofValue? (v : Value) : Option Automaton := do
  match ← v.record? ["states", "finals", "group_spans", "flags"] with
  | [states, finals, groups, flags] =>
    let states ← (← states.items?).mapM edgesOfValue?
    let finals ← (← finals.items?).mapM idOfValue?
    return {
      states := states.toArray
      finals := finals.foldl (fun ids id => insertId id ids) []
      groups := ← Group.listOfValue? groups
      flags := ← Flags.ofValue? flags }
  | _ => none

/-- Reads an automaton given as JSON. -/
def ofJson? (text : String) : Option Automaton :=
  (Value.ofText? text).bind ofValue?

end Automaton

end PatternAutomata
