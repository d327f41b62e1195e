/-!
# Matching modes

Two modes change what a search accepts. As text they are letters, each mode having its own.
-/
namespace PatternAutomata

structure Flags where
  /-- `^` and `$` hold at line ends too. -/
  multiline : Bool := false
  /-- `.` matches line ends too. -/
  dotAll : Bool := false
  deriving DecidableEq, Repr, Inhabited

/-- A letter that names no mode. -/
structure UnknownFlag where
  letter : Char
  deriving DecidableEq, Repr

def UnknownFlag.message (e : UnknownFlag) : String :=
  "unknown flag '" ++ e.letter.toString ++ "'"

namespace Flags

/-- The modes set in either. -/
def union (f g : Flags) : Flags :=
  ⟨f.multiline || g.multiline, f.dotAll || g.dotAll⟩

/-- Adds the mode that `letter` names. -/
def addLetter (f : Flags) (letter : Char) : Except UnknownFlag Flags :=
  match letter with
  | 'm' => .ok { f with multiline := true }
  | 's' => .ok { f with dotAll := true }
  | c => .error ⟨c⟩

/-- Reads letters from left to right; the first one that names no mode is the error. -/
def ofString (text : String) : Except UnknownFlag Flags :=
  text.toList.foldlM addLetter {}

def letters (f : Flags) : String :=
  (if f.multiline then "m" else "") ++ (if f.dotAll then "s" else "")

end Flags

end PatternAutomata
