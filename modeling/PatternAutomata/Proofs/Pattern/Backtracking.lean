import PatternAutomata.Proofs.Pattern.Matching
import PatternAutomata.Search.Match

/-!
# Matching by backtracking

What a pattern matches, in the order in which a matcher by backtracking comes upon it: an earlier
branch before a later one, a greedy repetition with another round before it stops, any other one
the other way round. The first outcome is the one that such a matcher reports.

## Main definitions

* `Cursor` — how far a match has come, and what its groups have reported.
* `Pattern.outcomes` — the ordered outcomes of a pattern.
* `Pattern.unrolled`, `Pattern.spelled` — counted repetitions written out.
* `Pattern.parts`, `Pattern.AllRepeated` — the patterns in a pattern, and what holds of each
  repetition among them.
* `Pattern.Consuming`, `Pattern.Sheltered` — what is asked of the bodies of repetitions.
-/
namespace PatternAutomata

/-- Where a matcher stands: the offset it has reached, and the ranges reported by groups. -/
@[ext] structure Cursor where
  offset : Nat
  captures : Nat → Option Span := fun _ => none

namespace Cursor

def goto (s : Cursor) (offset : Nat) : Cursor :=
  { s with offset }

/-- Group `index` reports the text from `start` on. -/
def report (s : Cursor) (index start : Nat) : Cursor :=
  { s with captures := fun i => if i = index then some ⟨start, s.offset⟩ else s.captures i }

@[simp] theorem offset_goto (s : Cursor) (offset : Nat) : (s.goto offset).offset = offset := rfl

@[simp] theorem captures_goto (s : Cursor) (offset : Nat) :
    (s.goto offset).captures = s.captures := rfl

@[simp] theorem offset_report (s : Cursor) (index start : Nat) :
    (s.report index start).offset = s.offset := rfl

@[simp] theorem goto_offset (s : Cursor) : s.goto s.offset = s := rfl

end Cursor

namespace Repetition

variable (round : Cursor → List Cursor)

/-- Up to `n` rounds. -/
def upTo (greedy : Bool) : Nat → Cursor → List Cursor
  | 0, s => [s]
  | n + 1, s =>
    if greedy then (round s).flatMap (upTo greedy n) ++ [s]
    else s :: (round s).flatMap (upTo greedy n)

/-- Exactly `n` rounds. -/
def exactly : Nat → Cursor → List Cursor
  | 0, s => [s]
  | n + 1, s => (round s).flatMap (exactly n)

/-- Any number of rounds, each of which consumes something of a text of `length` bytes. -/
def unbounded (greedy : Bool) (length : Nat) (s : Cursor) : List Cursor :=
  upTo round greedy (length - s.offset) s

/-- The outcomes of a repetition whose rounds consume something. -/
def outcomes (greedy : Bool) (length : Nat) : Repetition → Cursor → List Cursor
  | optional, s => upTo round greedy 1 s
  | star, s => unbounded round greedy length s
  | plus, s => (round s).flatMap (unbounded round greedy length)
  | counted min none, s => (exactly round min s).flatMap (unbounded round greedy length)
  | counted min (some max), s => (exactly round min s).flatMap (upTo round greedy (max - min))

/-- Repetitions without an upper bound. -/
def isUnbounded : Repetition → Bool
  | star | plus | counted _ none => true
  | optional | counted _ (some _) => false

end Repetition

/-- One character that is accepted. -/
def consumeOne (text : String) (accepts : Char → Bool) (s : Cursor) : List Cursor :=
  match Text.charAt text s.offset with
  | none => []
  | some c => if accepts c then [s.goto (s.offset + c.utf8Size)] else []

namespace Pattern

section Outcomes

variable (flags : Flags) (text : String)

mutual

/-- Where the pattern can be left, the preferred outcomes first. -/
def outcomes : Pattern → Cursor → List Cursor
  | alternation branches, s => outcomesAny branches s
  | sequence items, s => outcomesAll items s
  | repeated body times greedy, s => times.outcomes body.outcomes greedy text.utf8ByteSize s
  | group none body, s => body.outcomes s
  | group (some index) body, s => (body.outcomes s).map (·.report index s.offset)
  | anchor a, s => if a.holds text s.offset flags.multiline then [s] else []
  | char c, s => consumeOne text (· == c) s
  | charClass k, s => consumeOne text (k.contains · flags.dotAll) s
  | set negated items, s => consumeOne text (SetItem.admits negated items) s

def outcomesAny : List Pattern → Cursor → List Cursor
  | [], _ => []
  | p :: rest, s => p.outcomes s ++ outcomesAny rest s

def outcomesAll : List Pattern → Cursor → List Cursor
  | [], s => [s]
  | p :: rest, s => (p.outcomes s).flatMap (outcomesAll rest)

end

end Outcomes

/-- A counted repetition written out: `min` copies of the body, then as many optional ones as
`max` allows or, without it, a starred one. -/
def unrolled (body : Pattern) (min : Nat) (max : Option Nat) (greedy : Bool) : List Pattern :=
  List.replicate min body ++
    match max with
    | none => [.repeated body .star greedy]
    | some max => List.replicate (max - min) (.repeated body .optional greedy)

mutual

/-- The pattern with every counted repetition that has an upper bound and is not greedy written
out. -/
def spelled : Pattern → Pattern
  | alternation branches => alternation (spelledAll branches)
  | sequence items => sequence (spelledAll items)
  | repeated body (.counted min (some max)) false =>
    sequence (unrolled body.spelled min (some max) false)
  | repeated body times greedy => repeated body.spelled times greedy
  | group capture body => group capture body.spelled
  | anchor a => anchor a
  | char c => char c
  | charClass k => charClass k
  | set negated items => set negated items

def spelledAll : List Pattern → List Pattern
  | [] => []
  | p :: rest => p.spelled :: spelledAll rest

end

mutual

/-- The pattern and all patterns in it. -/
def parts : Pattern → List Pattern
  | alternation branches => alternation branches :: partsAll branches
  | sequence items => sequence items :: partsAll items
  | repeated body times greedy => repeated body times greedy :: body.parts
  | group capture body => group capture body :: body.parts
  | anchor a => [anchor a]
  | char c => [char c]
  | charClass k => [charClass k]
  | set negated items => [set negated items]

def partsAll : List Pattern → List Pattern
  | [] => []
  | p :: rest => p.parts ++ partsAll rest

end

/-- At `offset` a repetition by `+` that is not greedy stands alone in the pattern: whatever comes
before and after it there matches the empty text. -/
inductive Exposed (flags : Flags) (text : String) : Pattern → Nat → Prop
  | lazyPlus {body : Pattern} {offset : Nat} :
      Exposed flags text (.repeated body .plus false) offset
  | round {body : Pattern} {greedy : Bool} {offset : Nat} :
      Exposed flags text body offset → Exposed flags text (.repeated body .plus greedy) offset
  | counted {body : Pattern} {min : Nat} {max : Option Nat} {greedy : Bool} {offset : Nat} :
      Exposed flags text (.sequence (body.unrolled min max greedy)) offset →
      Exposed flags text (.repeated body (.counted min max) greedy) offset
  | group {capture : Option Nat} {body : Pattern} {offset : Nat} :
      Exposed flags text body offset → Exposed flags text (.group capture body) offset
  | branch {branches : List Pattern} {p : Pattern} {offset : Nat} :
      p ∈ branches → Exposed flags text p offset → Exposed flags text (.alternation branches) offset
  | first {p : Pattern} {rest : List Pattern} {offset : Nat} :
      Exposed flags text p offset → Matches flags text (.sequence rest) offset offset →
      Exposed flags text (.sequence (p :: rest)) offset
  | later {p : Pattern} {rest : List Pattern} {offset : Nat} :
      Matches flags text p offset offset → Exposed flags text (.sequence rest) offset →
      Exposed flags text (.sequence (p :: rest)) offset

/-- Every repetition in the pattern satisfies a condition. -/
def AllRepeated (C : Pattern → Repetition → Bool → Prop) (p : Pattern) : Prop :=
  ∀ body times greedy, .repeated body times greedy ∈ p.parts → C body times greedy

/-- No body of a repetition matches the empty text anywhere. -/
def Consuming (flags : Flags) (text : String) : Pattern → Prop :=
  AllRepeated fun body _ _ =>
    ∀ offset, Text.IsBoundary text offset → ¬body.Matches flags text offset offset

/-- No body of a repetition without an upper bound is exposed anywhere. -/
def Sheltered (flags : Flags) (text : String) : Pattern → Prop :=
  AllRepeated fun body times _ => times.isUnbounded = true →
    ∀ offset, Text.IsBoundary text offset → ¬body.Exposed flags text offset

section AllRepeated

variable {C : Pattern → Repetition → Bool → Prop} {p q : Pattern} {ps : List Pattern}

theorem mem_partsAll : q ∈ partsAll ps ↔ ∃ p ∈ ps, q ∈ p.parts := by
  induction ps with
  | nil => simp [partsAll]
  | cons p ps ih => simp [partsAll, ih]

theorem allRepeated_sequence : (sequence ps).AllRepeated C ↔ ∀ p ∈ ps, p.AllRepeated C := by
  simp only [AllRepeated, parts, List.mem_cons, mem_partsAll]
  grind

theorem allRepeated_alternation : (alternation ps).AllRepeated C ↔ ∀ p ∈ ps, p.AllRepeated C := by
  simp only [AllRepeated, parts, List.mem_cons, mem_partsAll]
  grind

theorem allRepeated_repeated {times : Repetition} {greedy : Bool} :
    (repeated p times greedy).AllRepeated C ↔ C p times greedy ∧ p.AllRepeated C := by
  simp only [AllRepeated, parts, List.mem_cons]
  grind

theorem allRepeated_group {capture : Option Nat} :
    (group capture p).AllRepeated C ↔ p.AllRepeated C := by
  simp only [AllRepeated, parts, List.mem_cons]
  grind

theorem allRepeated_char (c : Char) : (char c).AllRepeated C := by
  simp [AllRepeated, parts]

/-- A condition on a counted repetition and on its body is one on what is written out. -/
theorem AllRepeated.unrolled {min : Nat} {max : Option Nat} {greedy : Bool}
    (h : p.AllRepeated C)
    (h' : C p (if max.isSome then .optional else .star) greedy) :
    (sequence (p.unrolled min max greedy)).AllRepeated C := by
  refine allRepeated_sequence.2 fun q hq => ?_
  rcases List.mem_append.1 hq with hq | hq
  · rwa [List.eq_of_mem_replicate hq]
  cases max with
  | none =>
    rw [List.mem_singleton.1 hq]
    exact allRepeated_repeated.2 ⟨h', h⟩
  | some max =>
    rw [List.eq_of_mem_replicate hq]
    exact allRepeated_repeated.2 ⟨h', h⟩

end AllRepeated

end Pattern

end PatternAutomata
