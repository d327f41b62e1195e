import PatternAutomata.CharClass

/-!
# Decimal numbers

Reading unsigned numbers from ASCII digits.
-/
namespace PatternAutomata.Text

/-- The value of a run of decimal digits, most significant first. -/
def decimalValue (digits : List Char) : Nat :=
  digits.foldl (fun n c => 10 * n + (c.toNat - '0'.toNat)) 0

/-- A number below `bound`: one or more digits, which a plus sign may precede. -/
def unsigned? (bound : Nat) (cs : List Char) : Option Nat :=
  let digits := if cs.head? = some '+' then cs.tail else cs
  if digits ≠ [] ∧ digits.all isDigit ∧ decimalValue digits < bound then
    some (decimalValue digits)
  else none

end PatternAutomata.Text
