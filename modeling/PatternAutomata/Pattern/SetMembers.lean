import PatternAutomata.CharSet
import PatternAutomata.Diagnostic.Basic
import PatternAutomata.Pattern.Basic
import PatternAutomata.Pattern.Token

/-!
# Members of a bracketed set

Between brackets a token stands for its characters only, escapes and dashes apart. A dash between
two characters makes a range of the three; elsewhere it is itself.

## Main definitions

* `SetAtom.ofToken` — the characters that a token stands for between brackets.
* `SetItem.ofAtoms` — the members that a run of characters spells.
-/
namespace PatternAutomata

/-- The class that a backslash before `c` stands for. -/
def escapedClass? (c : Char) : Option CharClass :=
  if c = '.' then none else CharClass.ofLetter? c

/-- The character that a backslash before `c` stands for, classes aside. -/
def escapedChar : Char → Char
  | 'f' => '\x0c'
  | 'n' => '\n'
  | 'r' => '\r'
  | 't' => '\t'
  | 'v' => '\x0b'
  | c => c

inductive SetAtom.Kind where
  | char (c : Char)
  | charClass (k : CharClass)
  | dash
  deriving DecidableEq, Repr, Inhabited

/-- What one place between brackets stands for, with its byte range. -/
structure SetAtom where
  kind : SetAtom.Kind
  start : Nat
  stop : Nat
  deriving DecidableEq, Repr, Inhabited

namespace SetAtom

/-- The characters as atoms, the first one beginning at `offset`. -/
def ofChars (offset : Nat) : List Char → List SetAtom
  | [] => []
  | c :: rest => ⟨.char c, offset, offset + c.utf8Size⟩ :: ofChars (offset + c.utf8Size) rest

def ofEscape (c : Char) : Kind :=
  match escapedClass? c with
  | some k => .charClass k
  | none => .char (escapedChar c)

/-- The atoms that a token stands for. -/
def ofToken (t : Token) : List SetAtom :=
  match t.kind, t.chars with
  | .dash, _ => [⟨.dash, t.start, t.stop⟩]
  | .escape, _ :: c :: _ => [⟨ofEscape c, t.start, t.stop⟩]
  | _, cs => ofChars t.start cs

end SetAtom

namespace SetItem

/-- A range from `lo` to `hi`, written from `start` to `stop`. -/
def ofRange (lo hi : Char) (start stop : Nat) : Except Diagnostic SetItem :=
  if hi < lo then .error (.ofMistake .rangeOutOfOrder start stop)
  else if isAscii hi then .ok (.range lo hi)
  else .error (.ofMistake .nonAsciiInSet start stop)

/-- The member that one atom stands for by itself. -/
def ofAtom (atom : SetAtom) : Except Diagnostic SetItem :=
  match atom.kind with
  | .char c =>
    if isAscii c then .ok (.char c)
    else .error (.ofMistake .nonAsciiInSet atom.start atom.stop)
  | .charClass k => .ok (.charClass k)
  | .dash => .ok (.char '-')

/-- The members that the atoms spell, ranges being made from left to right. -/
def ofAtoms : List SetAtom → Except Diagnostic (List SetItem)
  | ⟨.char lo, start, _⟩ :: ⟨.dash, _, _⟩ :: ⟨.char hi, _, stop⟩ :: rest => do
    let item ← ofRange lo hi start stop
    return item :: (← ofAtoms rest)
  | atom :: rest => do
    let item ← ofAtom atom
    return item :: (← ofAtoms rest)
  | [] => .ok []

end SetItem

end PatternAutomata
