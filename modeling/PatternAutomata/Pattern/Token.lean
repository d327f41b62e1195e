import PatternAutomata.CharClass
import PatternAutomata.Text.Offset

/-!
# Pattern tokens

A pattern is cut into tokens from left to right, each as long as can be. The few tokens of more
than one character are `(?:`, `[^`, an escape, and a count such as `{2,3}`; a brace that begins no
count is an ordinary character.

## Main definitions

* `Token.lexeme` — the token at the front of a text.
* `Token.ofSource` — all tokens of a text.
-/
namespace PatternAutomata

inductive TokenKind where
  | nonCapturingOpen
  | parenOpen
  | parenClose
  | setNegatedOpen
  | setOpen
  | setClose
  | pipe
  | star
  | plus
  | question
  | braces
  | caret
  | dollar
  | dot
  | dash
  /-- A backslash with the character after it. -/
  | escape
  | char
  /-- A backslash at the end of the pattern. -/
  | garbage
  deriving DecidableEq, Repr, Inhabited

structure Token where
  kind : TokenKind
  /-- The offset of the first character. -/
  start : Nat
  chars : List Char
  deriving DecidableEq, Repr, Inhabited

namespace Token

/-- The offset after the last character. -/
def stop (t : Token) : Nat :=
  t.start + Text.byteLength t.chars

def text (t : Token) : String :=
  String.ofList t.chars

/-- What follows the opening brace of a count, up to its closing brace. -/
def countTail? (cs : List Char) : Option (List Char) :=
  let low := cs.takeWhile isDigit
  if low.isEmpty then none
  else
    match cs.dropWhile isDigit with
    | '}' :: _ => some (low ++ ['}'])
    | ',' :: rest =>
      match rest.dropWhile isDigit with
      | '}' :: _ => some (low ++ ',' :: rest.takeWhile isDigit ++ ['}'])
      | _ => none
    | _ => none

/-- The kind of the token that `c` begins, and the characters it takes from what follows. -/
def lexeme (c : Char) (rest : List Char) : TokenKind × List Char :=
  match c, rest with
  | '(', '?' :: ':' :: _ => (.nonCapturingOpen, ['?', ':'])
  | '(', _ => (.parenOpen, [])
  | ')', _ => (.parenClose, [])
  | '[', '^' :: _ => (.setNegatedOpen, ['^'])
  | '[', _ => (.setOpen, [])
  | ']', _ => (.setClose, [])
  | '|', _ => (.pipe, [])
  | '*', _ => (.star, [])
  | '+', _ => (.plus, [])
  | '?', _ => (.question, [])
  | '{', rest =>
    match countTail? rest with
    | some tail => (.braces, tail)
    | none => (.char, [])
  | '^', _ => (.caret, [])
  | '$', _ => (.dollar, [])
  | '.', _ => (.dot, [])
  | '-', _ => (.dash, [])
  | '\\', d :: _ => (.escape, [d])
  | '\\', [] => (.garbage, [])
  | _, _ => (.char, [])

/-- The tokens of a text that begins at `offset`. -/
def listFrom (offset : Nat) : List Char → List Token
  | [] => []
  | c :: rest =>
    let t : Token := ⟨(lexeme c rest).1, offset, c :: (lexeme c rest).2⟩
    t :: listFrom t.stop (rest.drop (lexeme c rest).2.length)
termination_by cs => cs.length
decreasing_by simp only [List.length_drop, List.length_cons]; omega

/-- The tokens of a pattern, in order. -/
def ofSource (source : String) : List Token :=
  listFrom 0 source.toList

end Token

end PatternAutomata
