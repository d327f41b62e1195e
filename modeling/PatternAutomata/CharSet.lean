import PatternAutomata.CharClass
import PatternAutomata.Text.Visible

/-!
# Sets of characters

A set is a table of the 128 ASCII characters with one more slot that stands for all other
characters, and a mark that turns membership round. Members are added by flipping their slots, so
one that is added twice is out again.

## Main definitions

* `CharSet.toggle?`, `CharSet.toggleRange?`, `CharSet.toggleClass` — add members.
* `CharSet.contains` — membership.
* `CharSet.ranges` — the ASCII members of the table as maximal runs.
-/
namespace PatternAutomata

structure CharSet where
  /-- Bit `n` is the slot of the ASCII character with code `n`. -/
  ascii : BitVec 128 := 0
  /-- The slot of all characters outside ASCII. -/
  other : Bool := false
  negated : Bool := false
  deriving DecidableEq, Repr, Inhabited

/-- Whether `c` has a slot of its own. -/
def isAscii (c : Char) : Bool :=
  c.toNat < 128

namespace CharSet

/-- The table whose slots 0 to 63 are the bits of `low` and 64 to 127 those of `high`. -/
def ofWords (low high : UInt64) (other negated : Bool) : CharSet :=
  ⟨high.toBitVec ++ low.toBitVec, other, negated⟩

def lowWord (s : CharSet) : UInt64 := ⟨s.ascii.extractLsb' 0 64⟩

def highWord (s : CharSet) : UInt64 := ⟨s.ascii.extractLsb' 64 64⟩

/-- Flips slot `n` of the table. -/
def flip (s : CharSet) (n : Nat) : CharSet :=
  { s with ascii := s.ascii ^^^ BitVec.twoPow 128 n }

/-- Flips the slot of `c`, if it has one of its own. -/
def toggle? (s : CharSet) (c : Char) : Option CharSet :=
  if isAscii c then some (s.flip c.toNat) else none

/-- Flips the slots from `lo` to `hi`, if both ends have slots of their own. -/
def toggleRange? (s : CharSet) (lo hi : Char) : Option CharSet :=
  if isAscii lo && isAscii hi then
    some ((List.range' lo.toNat (hi.toNat + 1 - lo.toNat)).foldl flip s)
  else none

/-- Whether the characters outside ASCII belong to `k`. -/
def coversOther (k : CharClass) : Bool :=
  k.isComplement || k == .any

/-- Flips the slots of all characters of `k`, line ends not being in `any`. -/
def toggleClass (s : CharSet) (k : CharClass) : CharSet :=
  let t := ((List.range 128).filter fun n => k.contains (Char.ofNat n) false).foldl flip s
  { t with other := t.other != coversOther k }

/-- The slot of `c`, negation left out of account. -/
def inTable (s : CharSet) (c : Char) : Bool :=
  if isAscii c then s.ascii.getLsbD c.toNat else s.other

def contains (s : CharSet) (c : Char) : Bool :=
  s.inTable c != s.negated

/-- Groups ascending numbers into maximal runs of neighbours. -/
def runs : List Nat → List (Nat × Nat)
  | [] => []
  | n :: rest =>
    match runs rest with
    | [] => [(n, n)]
    | (lo, hi) :: more => if lo = n + 1 then (n, hi) :: more else (n, n) :: (lo, hi) :: more

/-- The ASCII members of the table as maximal ranges, in order. -/
def ranges (s : CharSet) : List (Char × Char) :=
  (runs ((List.range 128).filter s.ascii.getLsbD)).map fun (lo, hi) =>
    (Char.ofNat lo, Char.ofNat hi)

def showRange (lo hi : Char) : String :=
  if lo = hi then Text.visible lo else Text.visible lo ++ "-" ++ Text.visible hi

/-- The set in brackets, with its ranges and the characters outside ASCII as one more range. -/
def shown (s : CharSet) : String :=
  (if s.negated then "[^" else "[") ++
    String.join (s.ranges.map fun (lo, hi) => showRange lo hi) ++
    (if s.other then "\\u\x7b80\x7d-\\u\x7b10ffff\x7d" else "") ++ "]"

end CharSet

end PatternAutomata
