import PatternAutomata.Automaton.Basic
import PatternAutomata.Pattern.Basic
import PatternAutomata.Text.Quoted

/-!
# Automata from patterns

A pattern is built as a fragment: a way to extend an automaton from a given entry state, which
yields the state where the fragment is left. Fragments are put together by combinators, one for
each kind of node, and a whole pattern is the fragment entered at state 0 with its exit made final.

A repeated part is wrapped in a block

```text
entry -> start -> inner ~part~> outer -> finish -> next
         start -> finish    (skip, where the part may be absent)
         finish -> start    (again, where it may recur)
```

whose extra edges come before or after the others, as the repetition is lazy or greedy.

## Main definitions

* `Fragment.edge`, `Fragment.sequence`, `Fragment.alternation`, `Fragment.block`,
  `Fragment.counted`, `Fragment.capture` — the combinators.
* `Pattern.fragment`, `Pattern.build` — the automaton of a pattern.
-/
namespace PatternAutomata

/-- Why a pattern has no automaton. -/
inductive BuildError where
  | emptyAlternation
  | boundsOutOfOrder (min max : Nat)
  | rangeOutOfOrder (lo hi : Char)
  | unsupportedSetMember (c : Char)
  | zeroGroupIndex
  | tooManyStates (limit : Nat)
  deriving DecidableEq, Repr, Inhabited

def BuildError.message : BuildError → String
  | emptyAlternation => "alternation has no branches"
  | boundsOutOfOrder min max =>
    "quantifier bounds out of order: \x7b" ++ toString min ++ "," ++ toString max ++ "\x7d"
  | rangeOutOfOrder lo hi =>
    "character range out of order: " ++ Text.quotedChar lo ++ "-" ++ Text.quotedChar hi
  | unsupportedSetMember c =>
    "character " ++ Text.quotedChar c ++ " cannot appear in a character set"
  | zeroGroupIndex => "capture group indices start at 1"
  | tooManyStates limit => "counted repetition needs more than " ++ toString limit ++ " states"

namespace SetItem

/-- Adds a member to a set. -/
def addTo (s : CharSet) : SetItem → Except BuildError CharSet
  | char c =>
    match s.toggle? c with
    | some s => .ok s
    | none => .error (.unsupportedSetMember c)
  | range lo hi =>
    if hi < lo then .error (.rangeOutOfOrder lo hi)
    else
      match s.toggleRange? lo hi with
      | some s => .ok s
      | none => .error (.unsupportedSetMember hi)
  | charClass k => .ok (s.toggleClass k)

end SetItem

/-- A way to extend an automaton from an entry state, with the state where it is left. -/
abbrev Fragment :=
  Nat → Automaton → Except BuildError (Nat × Automaton)

namespace Fragment

/-- Counted repetitions stop once the automaton has more states than this. -/
def maxStates : Nat := 0x10_0000

/-- A single edge to a new state. -/
def edge (label : Label) : Fragment := fun entry a =>
  let (exit, a) := a.addState
  .ok (exit, a.addEdge entry label exit .last)

/-- An edge that consumes a member of a set. -/
def set (negated : Bool) (items : List SetItem) : Fragment := fun entry a => do
  let s ← items.foldlM SetItem.addTo { negated }
  edge (.set s) entry a

/-- One fragment after the other. -/
def sequence : List Fragment → Fragment
  | [], entry, a => .ok (entry, a)
  | part :: rest, entry, a => do
    let (exit, a) ← part entry a
    sequence rest exit a

/-- A new state for each fragment, entered from the same state; gives their exits. -/
def fan : List Fragment → Nat → Automaton → Except BuildError (List Nat × Automaton)
  | [], _, a => .ok ([], a)
  | part :: rest, entry, a => do
    let (start, a) := a.addState
    let (exit, a) ← part start (a.addEpsilon entry start .last)
    let (exits, a) ← fan rest entry a
    return (exit :: exits, a)

/-- Any one of the fragments, all left through the same new state. -/
def alternation (parts : List Fragment) : Fragment := fun entry a =>
  if parts.isEmpty then .error .emptyAlternation
  else do
    let (exits, a) ← fan parts entry a
    let (join, a) := a.addState
    return (join, exits.foldl (fun a exit => a.addEpsilon exit join .last) a)

/-- Which extra edges a block has. -/
structure Shape where
  skip : Bool
  again : Bool
  deriving DecidableEq, Repr, Inhabited

/-- Between new states, a part that may be skipped or made again as `shape` says. -/
def block (part : Fragment) (shape : Shape) (greedy : Bool) : Fragment := fun entry a => do
  let (start, a) := a.addState
  let a := a.addEpsilon entry start .last
  let (inner, a) := a.addState
  let a := a.addEpsilon start inner .last
  let (outer, a) ← part inner a
  let (finish, a) := a.addState
  let a := a.addEpsilon outer finish .last
  let (next, a) := a.addState
  let a := a.addEpsilon finish next .last
  let a := if shape.skip then
      a.addEpsilon start finish (if greedy then .last else .first)
    else a
  let a := if shape.again then
      a.addEpsilon finish start (if greedy then .first else .last)
    else a
  return (next, a)

/-- `n` copies of a part, the size of the automaton being checked after each. -/
def copies (part : Fragment) : Nat → Fragment
  | 0, entry, a => .ok (entry, a)
  | n + 1, entry, a => do
    let (exit, a) ← part entry a
    if maxStates < a.stateCount then .error (.tooManyStates maxStates)
    else copies part n exit a

def optional (part : Fragment) (greedy : Bool) : Fragment :=
  block part ⟨true, false⟩ greedy

def star (part : Fragment) (greedy : Bool) : Fragment :=
  block part ⟨true, true⟩ greedy

def plus (part : Fragment) (greedy : Bool) : Fragment :=
  block part ⟨false, true⟩ greedy

/-- `min` copies, then as many optional ones as `max` allows or, without it, a starred one. -/
def counted (part : Fragment) (min : Nat) (max : Option Nat) (greedy : Bool) : Fragment :=
  fun entry a =>
    match max with
    | none => do
      let (exit, a) ← copies part min entry a
      star part greedy exit a
    | some max =>
      if max < min then .error (.boundsOutOfOrder min max)
      else do
        let (exit, a) ← copies part min entry a
        copies (optional part greedy) (max - min) exit a

def repeated (part : Fragment) (times : Repetition) (greedy : Bool) : Fragment :=
  match times with
  | .optional => optional part greedy
  | .star => star part greedy
  | .plus => plus part greedy
  | .counted min max => counted part min max greedy

/-- A part between two new states that are recorded as a span of group `index`. -/
def capture (index : Nat) (part : Fragment) : Fragment := fun entry a => do
  let (first, a) := a.addState
  let (last, a) ← part first (a.addEpsilon entry first .last)
  let (exit, a) := a.addState
  return (exit, (a.addEpsilon last exit .last).addSpan index ⟨first, exit⟩)

end Fragment

namespace Pattern

mutual

/-- The fragment that matches the pattern. -/
def fragment : Pattern → Fragment
  | alternation branches => Fragment.alternation (fragments branches)
  | sequence items => Fragment.sequence (fragments items)
  | repeated body times greedy => Fragment.repeated body.fragment times greedy
  | group none body => body.fragment
  | group (some index) body => Fragment.capture index body.fragment
  | anchor a => Fragment.edge (.epsilon (some a))
  | char c => Fragment.edge (.char c)
  | charClass k => Fragment.edge (.charClass k)
  | set negated items => Fragment.set negated items

def fragments : List Pattern → List Fragment
  | [] => []
  | p :: rest => p.fragment :: fragments rest

end

/-- The groups of the pattern, up to the highest index, before any copy is built. -/
def declaredGroups (p : Pattern) : List Group :=
  (List.range' 1 (p.captures.foldl max 0)).map fun index => ⟨index, []⟩

/-- The automaton of a pattern. -/
def build (p : Pattern) (flags : Flags) : Except BuildError Automaton :=
  if p.captures.contains 0 then .error .zeroGroupIndex
  else do
    let (exit, a) ← p.fragment 0 { Automaton.single flags with groups := p.declaredGroups }
    return a.setFinal exit

end Pattern

end PatternAutomata
