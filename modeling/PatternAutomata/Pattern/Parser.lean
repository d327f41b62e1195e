import PatternAutomata.Pattern.SetMembers
import PatternAutomata.Text.Decimal

/-!
# Parsing patterns

A pattern is parsed by passing once over its tokens. Between two tokens the parser holds the groups
that are still open, each with what had been read around it, and the branches and items read since
the innermost one was opened.

```text
pattern     = sequence ("|" sequence)*
sequence    = item*
item        = anchor | atom quantifier?
anchor      = "^" | "$" | "\b" | "\B"
atom        = "(" pattern ")" | "(?:" pattern ")" | set | "." | escape | character
quantifier  = ("*" | "+" | "?" | count) "?"?
```

Capture groups are numbered from 1 by their opening parentheses. The first mistake ends the parse.

## Main definitions

* `Parser.step` — what one token does to the state of a parse.
* `Pattern.parse` — the pattern that a text spells.
-/
namespace PatternAutomata

inductive ParseError where
  | invalid (d : Diagnostic)
  /-- Groups are nested deeper than allowed. -/
  | tooDeep
  deriving DecidableEq, Repr, Inhabited

def ParseError.message : ParseError → String
  | invalid _ => "pattern parsing failed with 1 errors"
  | tooDeep => "recursion limit exceeded"

namespace Pattern

/-- A sequence, unless there is just one item. -/
def ofItems : List Pattern → Pattern
  | [p] => p
  | items => .sequence items

/-- An alternation, unless there is just one branch. -/
def ofBranches : List Pattern → Pattern
  | [p] => p
  | branches => .alternation branches

end Pattern

namespace Parser

/-- The greatest bound that a count may have. -/
def maxBound : Nat := 1000

/-- What a quantifier would apply to. -/
inductive Operand where
  | none
  /-- The last item, which has no quantifier yet. -/
  | atom
  /-- The last item, whose quantifier may still be made lazy. -/
  | quantified
  deriving DecidableEq, Repr, Inhabited

/-- Finished branches and the items of the current one, the latest first. -/
structure Level where
  branches : List Pattern := []
  items : List Pattern := []
  deriving Repr, Inhabited

namespace Level

def push (l : Level) (p : Pattern) : Level :=
  { l with items := p :: l.items }

def endBranch (l : Level) : Level :=
  ⟨Pattern.ofItems l.items.reverse :: l.branches, []⟩

/-- The pattern that the branches make. -/
def pattern (l : Level) : Pattern :=
  Pattern.ofBranches l.endBranch.branches.reverse

end Level

/-- A group whose closing parenthesis is still to come, and what was read around it. -/
structure OpenGroup where
  token : Token
  capture : Option Nat
  outer : Level
  deriving Repr, Inhabited

/-- A set whose closing bracket is still to come; its atoms are listed the latest first. -/
structure OpenSet where
  token : Token
  negated : Bool
  atoms : List SetAtom := []
  deriving Repr, Inhabited

structure State where
  /-- The innermost group first. -/
  groups : List OpenGroup := []
  level : Level := {}
  operand : Operand := .none
  set : Option OpenSet := none
  /-- The number of capture groups opened so far. A count of 32 bits agrees with it as long as there
  are fewer than `2 ^ 32` of them. -/
  captures : Nat := 0
  deriving Repr, Inhabited

/-- The mistake of the whole token `t`. -/
def mistakeAt (t : Token) (mistake : Mistake) : ParseError :=
  .invalid (.ofMistake mistake t.start t.stop)

/-- One bound of the count that `t` spells. -/
def bound (t : Token) (digits : List Char) : Except ParseError Nat :=
  match Text.unsigned? (maxBound + 1) digits with
  | some n => .ok n
  | none => .error (mistakeAt t .boundTooLarge)

/-- The repetition that a count such as `{2,3}` spells. -/
def count (t : Token) : Except ParseError Repetition :=
  let inner := t.chars.tail.dropLast
  let low := inner.takeWhile (· ≠ ',')
  match inner.dropWhile (· ≠ ',') with
  | [] => do
    let n ← bound t low
    return .counted n (some n)
  | [_] => do return .counted (← bound t low) none
  | _ :: high => do
    let min ← bound t low
    let max ← bound t high
    if max < min then .error (mistakeAt t .boundsOutOfOrder)
    else .ok (.counted min (some max))

namespace State

/-- Adds an item that a quantifier may follow. -/
def pushAtom (s : State) (p : Pattern) : State :=
  { s with level := s.level.push p, operand := .atom }

/-- Adds an item that no quantifier may follow. -/
def pushAnchor (s : State) (a : Anchor) : State :=
  { s with level := s.level.push (.anchor a), operand := .none }

/-- Opens a group; `captures` counts the groups opened so far, this one included. -/
def openGroup (s : State) (maxDepth : Nat) (t : Token) (capture : Option Nat) (captures : Nat) :
    Except ParseError State :=
  if maxDepth ≤ s.groups.length then .error .tooDeep
  else .ok { groups := ⟨t, capture, s.level⟩ :: s.groups, captures }

def closeGroup (s : State) (t : Token) : Except ParseError State :=
  match s.groups with
  | [] => .error (mistakeAt t .unmatchedParen)
  | g :: groups =>
    .ok { s with
      groups
      level := g.outer.push (.group g.capture s.level.pattern)
      operand := .atom }

/-- Applies a quantifier to the last item. -/
def quantify (s : State) (t : Token) (times : Except ParseError Repetition) :
    Except ParseError State :=
  match s.operand, s.level.items with
  | .atom, body :: items => do
    let times ← times
    return { s with
      level := { s.level with items := .repeated body times true :: items }
      operand := .quantified }
  | _, _ => .error (mistakeAt t .nothingToRepeat)

/-- A question mark is a quantifier of its own or makes the one before it lazy. -/
def question (s : State) (t : Token) : Except ParseError State :=
  match s.operand, s.level.items with
  | .quantified, .repeated body times _ :: items =>
    .ok { s with
      level := { s.level with items := .repeated body times false :: items }
      operand := .none }
  | _, _ => s.quantify t (.ok .optional)

/-- The item that a backslash before `c` makes. -/
def escape (s : State) (c : Char) : State :=
  match c with
  | 'b' => s.pushAnchor .wordBoundary
  | 'B' => s.pushAnchor .notWordBoundary
  | c =>
    match escapedClass? c with
    | some k => s.pushAtom (.charClass k)
    | none => s.pushAtom (.char (escapedChar c))

/-- Takes a token that stands between brackets. -/
def stepInSet (s : State) (set : OpenSet) (t : Token) : Except ParseError State :=
  match t.kind with
  | .setClose =>
    match SetItem.ofAtoms set.atoms.reverse with
    | .ok items => .ok { s.pushAtom (.set set.negated items) with set := none }
    | .error d => .error (.invalid d)
  | .garbage => .error (mistakeAt t .danglingBackslash)
  | _ => .ok { s with
      set := some { set with atoms := (SetAtom.ofToken t).reverse ++ set.atoms } }

/-- Takes a token that stands outside brackets. -/
def stepOutside (s : State) (maxDepth : Nat) (t : Token) : Except ParseError State :=
  match t.kind, t.chars with
  | .parenOpen, _ => s.openGroup maxDepth t (some (s.captures + 1)) (s.captures + 1)
  | .nonCapturingOpen, _ => s.openGroup maxDepth t none s.captures
  | .parenClose, _ => s.closeGroup t
  | .setOpen, _ => .ok { s with set := some { token := t, negated := false } }
  | .setNegatedOpen, _ => .ok { s with set := some { token := t, negated := true } }
  | .pipe, _ => .ok { s with level := s.level.endBranch, operand := .none }
  | .star, _ => s.quantify t (.ok .star)
  | .plus, _ => s.quantify t (.ok .plus)
  | .question, _ => s.question t
  | .braces, _ => s.quantify t (count t)
  | .caret, _ => .ok (s.pushAnchor .start)
  | .dollar, _ => .ok (s.pushAnchor .finish)
  | .dot, _ => .ok (s.pushAtom (.charClass .any))
  | .escape, [_, c] => .ok (s.escape c)
  | .char, [c] | .dash, [c] | .setClose, [c] => .ok (s.pushAtom (.char c))
  | _, _ => .error (mistakeAt t .danglingBackslash)

end State

/-- What one token does to the state of a parse. -/
def step (maxDepth : Nat) (s : State) (t : Token) : Except ParseError State :=
  match s.set with
  | some set => s.stepInSet set t
  | none => s.stepOutside maxDepth t

/-- The pattern read, once there are no more tokens. -/
def finish (s : State) : Except ParseError Pattern :=
  match s.set, s.groups with
  | some set, _ => .error (mistakeAt set.token .unclosedSet)
  | none, g :: _ => .error (mistakeAt g.token .unclosedGroup)
  | none, [] => .ok s.level.pattern

end Parser

namespace Pattern

/-- How deep groups may be nested unless the caller says otherwise. -/
def defaultDepth : Nat := 256

/-- The pattern that `source` spells, its groups nested at most `maxDepth` deep. -/
def parse (source : String) (maxDepth : Nat) : Except ParseError Pattern := do
  Parser.finish (← (Token.ofSource source).foldlM (Parser.step maxDepth) {})

end Pattern

end PatternAutomata
