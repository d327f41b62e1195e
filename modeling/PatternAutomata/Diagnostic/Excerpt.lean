import PatternAutomata.Diagnostic.Basic
import PatternAutomata.Text.Column
import PatternAutomata.Text.Offset

/-!
# Diagnostics inside their source

An excerpt shows the line that a diagnostic is about, with carets under the bytes to blame.

```text
error: unmatched `)`
 --> x.re:1:2
  |
1 | a)
  |  ^ unmatched `)`
```

## Main definitions

* `Excerpt.ofRange?` — the line of a byte range and the mark under it.
* `Diagnostic.summary` — diagnostics without their source.
* `Diagnostic.render?` — diagnostics inside their source.
-/
namespace PatternAutomata

/-- A line of a text with a mark under it. -/
structure Excerpt where
  /-- Lines count from 1. -/
  line : Nat
  /-- The character at which the mark begins, counting from 1. -/
  column : Nat
  text : List Char
  /-- Terminal columns before the mark. -/
  indent : Nat
  /-- Terminal columns of the mark. -/
  carets : Nat
  deriving DecidableEq, Repr, Inhabited

namespace Excerpt

/-- The first `bytes` bytes of a text, or all of it if it is shorter. No part of a text ends inside
a character. -/
def upTo? : Nat → List Char → Option (List Char)
  | 0, _ => some []
  | _, [] => some []
  | bytes, c :: rest =>
    if bytes < c.utf8Size then none else (upTo? (bytes - c.utf8Size) rest).map (c :: ·)

/-- A text parted after its first line. -/
structure FirstLine where
  /-- What stands on the line. -/
  text : List Char
  /-- Bytes of the line and of the line feed, or carriage return and line feed, that end it. -/
  size : Nat
  following : List Char

def firstLine : List Char → FirstLine
  | [] => ⟨[], 0, []⟩
  | '\n' :: rest => ⟨[], 1, rest⟩
  | '\r' :: '\n' :: rest => ⟨[], 2, rest⟩
  | c :: rest =>
    let first := firstLine rest
    ⟨c :: first.text, c.utf8Size + first.size, first.following⟩

theorem length_following_le (source : List Char) :
    (firstLine source).following.length ≤ source.length := by
  fun_induction firstLine source with
  | case1 => simp
  | case2 => simp
  | case3 => exact Nat.le_add_right _ 2
  | case4 c rest _ _ first ih => exact Nat.le_succ_of_le ih

theorem length_following_lt {source : List Char} (h : (firstLine source).following ≠ []) :
    (firstLine source).following.length < source.length := by
  fun_cases firstLine source with
  | case1 => simp [firstLine] at h
  | case2 => simp
  | case3 => exact Nat.lt_add_of_pos_right Nat.two_pos
  | case4 c rest => exact Nat.lt_succ_of_le (length_following_le rest)

/-- A place in a text: the number of its line, how many bytes into the line it is, and what stands
on the line. -/
structure Place where
  line : Nat
  offset : Nat
  text : List Char

/-- The place of the byte at `offset`, the first line being line `number`. What is past the end of
the text is on its last line. -/
def placeOf (number offset : Nat) (source : List Char) : Place :=
  let first := firstLine source
  if h : offset < first.size ∨ first.following = [] then ⟨number, offset, first.text⟩
  else
    have := length_following_lt (not_or.mp h).2
    placeOf (number + 1) (offset - first.size) first.following
termination_by source.length

/-- Where a range of a text of `size` bytes ends, an empty one being widened to the byte after it.
Offsets are 64-bit words, so the last of them has no byte after it. -/
def stop? (size start stop : Nat) : Option Nat :=
  if start ≠ stop then some stop
  else if start + 1 < 0x1_0000_0000_0000_0000 then some (min (start + 1) size)
  else none

/-- Columns of characters that stand in a line. -/
def widthOf (cs : List Char) : Nat :=
  Text.width (cs.flatMap Text.inLine)

/-- The line in which the bytes from `start` up to `stop` begin, marked as far as they go, with at
least one caret. A place in the end of a line has the second column after what stands there. The
range must not end more than one byte past the text, cut a character apart, or run backwards within
a line. -/
def ofRange? (source : List Char) (start stop : Nat) : Option Excerpt := do
  let size := Text.byteLength source
  let stop ← stop? size start stop
  guard (stop ≤ size + 1)
  let first := placeOf 1 start source
  let last := placeOf 1 stop source
  let before ← upTo? first.offset first.text
  let through ← upTo? last.offset last.text
  let past := if Text.byteLength first.text < first.offset then 1 else 0
  let indent := widthOf before
  let stopColumn := if first.line = last.line then widthOf through else widthOf first.text
  guard (indent ≤ stopColumn)
  return {
    line := first.line
    column := before.length + past + 1
    text := first.text
    indent
    carets := max 1 (stopColumn - indent) }

end Excerpt

/-- How the parts of a diagnostic are set off. -/
structure Highlight where
  severe : String → String
  title : String → String
  frame : String → String

namespace Highlight

def plain : Highlight := ⟨id, id, id⟩

/-- Puts a text between control sequences. -/
def between (start text : String) : String :=
  start ++ text ++ "\x1b[0m"

def colored : Highlight :=
  ⟨between "\x1b[1m\x1b[91m", between "\x1b[1m", between "\x1b[1m\x1b[94m"⟩

end Highlight

namespace Diagnostic

def blanks (n : Nat) : String :=
  String.ofList (List.replicate n ' ')

/-- What stands after a bar, parted from it unless there is nothing. -/
def afterBar (text : String) : String :=
  if text.isEmpty then "" else " " ++ text

/-- One diagnostic with its excerpt; `path` says where the source is from. -/
def renderIn (d : Diagnostic) (h : Highlight) (path : Option String) (e : Excerpt) : String :=
  let number := toString e.line
  let gutter := blanks number.length
  let bar := h.frame "|"
  let place := path.toList.map fun path =>
    gutter ++ h.frame "--> " ++ path ++ ":" ++ number ++ ":" ++ toString e.column
  let label := if d.message.isEmpty then "" else " " ++ h.severe d.message
  "\n".intercalate
    ((h.severe "error" ++ h.title (": " ++ d.message)) :: place ++
      [gutter ++ " " ++ bar,
        h.frame number ++ " " ++ bar ++ afterBar (String.ofList (e.text.flatMap Text.inLine)),
        gutter ++ " " ++ bar ++ " " ++ blanks e.indent ++
          h.severe (String.ofList (List.replicate e.carets '^')) ++ label])

/-- Diagnostics without their source: only ranges and messages. -/
def summary (ds : List Diagnostic) : String :=
  "\n".intercalate (ds.map shown)

/-- Diagnostics inside their source, if every range fits it. -/
def render? (ds : List Diagnostic) (source : String) (path : Option String) (colored : Bool) :
    Option String := do
  let excerpts ← ds.mapM fun d =>
    return renderIn d (if colored then .colored else .plain) path
      (← Excerpt.ofRange? source.toList d.start d.stop)
  return "\n".intercalate excerpts

end Diagnostic

end PatternAutomata
