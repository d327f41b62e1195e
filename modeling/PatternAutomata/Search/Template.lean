import PatternAutomata.Search.Match
import PatternAutomata.Text.Decimal

/-!
# Replacement templates

In a template `$` with digits after it stands for the group of that index, as many digits being
taken as there are; `$$` stands for a single `$`, and any other character for itself. A group that
took no part in the match, or that there is not, expands to nothing.
-/
namespace PatternAutomata

inductive Template.Piece where
  | char (c : Char)
  | group (index : Nat)
  deriving DecidableEq, Repr, Inhabited

structure Template where
  pieces : List Template.Piece
  deriving DecidableEq, Repr, Inhabited

namespace Template

/-- The pieces of a template, read from left to right. -/
def readPieces : List Char → List Piece
  | [] => []
  | '$' :: '$' :: rest => .char '$' :: readPieces rest
  | '$' :: d :: rest =>
    if isDigit d then
      .group (Text.decimalValue (d :: rest.takeWhile isDigit)) ::
        readPieces (rest.dropWhile isDigit)
    else .char '$' :: readPieces (d :: rest)
  | c :: rest => .char c :: readPieces rest
termination_by cs => cs.length
decreasing_by
  · simp only [List.length_cons]; omega
  · have := (List.dropWhile_suffix (l := rest) isDigit).length_le
    simp only [List.length_cons]; omega
  · simp
  · simp

def parse (source : String) : Template :=
  ⟨readPieces source.toList⟩

def Piece.isChar : Piece → Bool
  | char _ => true
  | group _ => false

/-- Whether the expansion is the same for all matches. -/
def isLiteral (t : Template) : Bool :=
  t.pieces.all Piece.isChar

def Piece.expand (r : Match) : Piece → String
  | char c => c.toString
  | group index => (r.group? index).getD ""

def expand (t : Template) (r : Match) : String :=
  String.join (t.pieces.map (Piece.expand r))

end Template

end PatternAutomata
