import PatternAutomata.Proofs.CharSet.Parity
import PatternAutomata.Text.Offset

/-!
# What a pattern matches

A pattern matches a text from one offset to another. The relation knows neither automata nor the
order in which a search tries things: it says what is matched, not what is preferred.

## Main definitions

* `Text.IsBoundary` — a place between the characters of a text.
* `Pattern.Matches` — a pattern matches from one offset to another.
* `Pattern.nodes` — the number of nodes of a pattern.
-/
namespace PatternAutomata

/-- A character begins at `offset`, or the text ends there. -/
def Text.IsBoundary (text : String) (offset : Nat) : Prop :=
  (⟨offset⟩ : String.Pos.Raw).IsValid text

instance (text : String) (offset : Nat) : Decidable (Text.IsBoundary text offset) :=
  inferInstanceAs (Decidable (String.Pos.Raw.IsValid text ⟨offset⟩))

theorem Text.isBoundary_of_charAt {text : String} {offset : Nat} {c : Char}
    (h : charAt text offset = some c) : IsBoundary text (offset + c.utf8Size) := by
  obtain ⟨before, after, rfl, rfl⟩ := charAt_eq_some_iff.1 h
  refine String.Pos.Raw.isValid_iff_exists_append.2
    ⟨before ++ String.singleton c, after, (String.append_assoc ..).symm, ?_⟩
  ext
  simp

theorem Text.IsBoundary.le {text : String} {offset : Nat} (h : IsBoundary text offset) :
    offset ≤ text.utf8ByteSize :=
  String.Pos.Raw.IsValid.le_rawEndPos h

/-- How many rounds a repetition may have. -/
def Repetition.Admits : Repetition → Nat → Prop
  | optional, n => n ≤ 1
  | star, _ => True
  | plus, n => 1 ≤ n
  | counted min none, n => min ≤ n
  | counted min (some max), n => min ≤ n ∧ n ≤ max

namespace Pattern

mutual

/-- The nodes of a pattern; the members of a set are none. -/
def nodes : Pattern → Nat
  | alternation branches => nodesAll branches + 1
  | sequence items => nodesAll items + 1
  | repeated body _ _ => body.nodes + 1
  | group _ body => body.nodes + 1
  | anchor _ | char _ | charClass _ | set _ _ => 1

def nodesAll : List Pattern → Nat
  | [] => 0
  | p :: rest => p.nodes + nodesAll rest

end

/-- The pattern matches `text` from the first offset to the second. -/
inductive Matches (flags : Flags) (text : String) : Pattern → Nat → Nat → Prop
  | anchor {a : Anchor} {i : Nat} :
      a.holds text i flags.multiline = true → Matches flags text (.anchor a) i i
  | char {c : Char} {i : Nat} :
      Text.charAt text i = some c → Matches flags text (.char c) i (i + c.utf8Size)
  | charClass {k : CharClass} {c : Char} {i : Nat} :
      Text.charAt text i = some c → k.contains c flags.dotAll = true →
      Matches flags text (.charClass k) i (i + c.utf8Size)
  | set {negated : Bool} {items : List SetItem} {c : Char} {i : Nat} :
      Text.charAt text i = some c → SetItem.admits negated items c = true →
      Matches flags text (.set negated items) i (i + c.utf8Size)
  | nil {i : Nat} : Matches flags text (.sequence []) i i
  | cons {p : Pattern} {rest : List Pattern} {i j k : Nat} :
      Matches flags text p i j → Matches flags text (.sequence rest) j k →
      Matches flags text (.sequence (p :: rest)) i k
  | branch {branches : List Pattern} {p : Pattern} {i j : Nat} :
      p ∈ branches → Matches flags text p i j → Matches flags text (.alternation branches) i j
  | group {capture : Option Nat} {body : Pattern} {i j : Nat} :
      Matches flags text body i j → Matches flags text (.group capture body) i j
  | repeated {body : Pattern} {times : Repetition} {greedy : Bool} {n i j : Nat} :
      times.Admits n → Matches flags text (.sequence (List.replicate n body)) i j →
      Matches flags text (.repeated body times greedy) i j

theorem Matches.le {flags : Flags} {text : String} {p : Pattern} {i j : Nat}
    (h : Matches flags text p i j) : i ≤ j := by
  induction h with
  | anchor | nil => exact Nat.le_refl _
  | char | charClass | set => exact Nat.le_add_right _ _
  | cons _ _ ih ih' => exact Nat.le_trans ih ih'
  | branch _ _ ih | group _ ih | repeated _ _ ih => exact ih

theorem Matches.lt_of_char {flags : Flags} {text : String} {c : Char} {i j : Nat}
    (h : Matches flags text (.char c) i j) : i < j := by
  cases h
  exact Nat.lt_add_of_pos_right c.utf8Size_pos

end Pattern

end PatternAutomata
