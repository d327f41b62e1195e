import PatternAutomata.Json.Token

/-!
# JSON values

A JSON text is read token by token. Between two tokens the reader holds the arrays and objects that
are open, the innermost first, and what may come next. Repeated names and the order of an object's
members are kept.

## Main definitions

* `Json.Value` — what a JSON text says.
* `Json.Reading.next?` — one token read.
* `Json.Value.ofText?` — the value of a text.
-/
namespace PatternAutomata.Json

inductive Value where
  | null
  | bool (b : Bool)
  /-- A number; only a natural one written without sign, fraction and exponent has a value. -/
  | number (natural : Option Nat)
  /-- A string as it is written, without its quotes. -/
  | string (written : List Char)
  | array (items : List Value)
  /-- Members with their names as they are written. -/
  | object (members : List (List Char × Value))
  deriving Repr, Inhabited

/-- An array or object that is open, with what it has so far, the latest first. -/
inductive Frame where
  | array (items : List Value)
  /-- The next value belongs to `name`. -/
  | object (members : List (List Char × Value)) (name : List Char)

/-- What may come next. -/
inductive Stage where
  | value
  /-- The first item of an array, or its end. -/
  | item
  /-- The first name of an object, or its end. -/
  | member
  /-- A name of an object that has `members`. -/
  | name (members : List (List Char × Value))
  | colon (members : List (List Char × Value)) (name : List Char)
  /-- A comma or an end after `v`, or nothing if no array or object is open. -/
  | after (v : Value)

/-- How far a text has been read. -/
structure Reading where
  frames : List Frame := []
  stage : Stage := .value

namespace Reading

/-- Begins a value. -/
def begin? (frames : List Frame) : Token → Option Reading
  | .null => some ⟨frames, .after .null⟩
  | .bool b => some ⟨frames, .after (.bool b)⟩
  | .number natural => some ⟨frames, .after (.number natural)⟩
  | .string written => some ⟨frames, .after (.string written)⟩
  | .arrayOpen => some ⟨.array [] :: frames, .item⟩
  | .objectOpen => some ⟨frames, .member⟩
  | _ => none

/-- Goes on after the value `v`. -/
def continue? (v : Value) : List Frame → Token → Option Reading
  | .array items :: frames, .comma => some ⟨.array (v :: items) :: frames, .value⟩
  | .array items :: frames, .arrayClose => some ⟨frames, .after (.array (v :: items).reverse)⟩
  | .object members name :: frames, .comma => some ⟨frames, .name ((name, v) :: members)⟩
  | .object members name :: frames, .objectClose =>
    some ⟨frames, .after (.object ((name, v) :: members).reverse)⟩
  | _, _ => none

/-- Reads one token. -/
def next? (r : Reading) (t : Token) : Option Reading :=
  match r.stage with
  | .value => begin? r.frames t
  | .item =>
    if t = .arrayClose then some ⟨r.frames.tail, .after (.array [])⟩ else begin? r.frames t
  | .member =>
    match t with
    | .objectClose => some ⟨r.frames, .after (.object [])⟩
    | .string name => some ⟨r.frames, .colon [] name⟩
    | _ => none
  | .name members =>
    match t with
    | .string name => some ⟨r.frames, .colon members name⟩
    | _ => none
  | .colon members name =>
    if t = .colon then some ⟨.object members name :: r.frames, .value⟩ else none
  | .after v => continue? v r.frames t

/-- Reads a text to its end. -/
def readAll? (r : Reading) : List Char → Option Reading
  | [] => some r
  | c :: rest =>
    if isWhitespace c then r.readAll? rest
    else
      match token? c rest with
      | none => none
      | some (t, length) =>
        match r.next? t with
        | none => none
        | some r => r.readAll? (rest.drop length)
termination_by cs => cs.length
decreasing_by
  · simp only [List.length_cons]; omega
  · simp only [List.length_drop, List.length_cons]; omega

/-- The value that has been read, if nothing is open. -/
def done? (r : Reading) : Option Value :=
  match r.frames, r.stage with
  | [], .after v => some v
  | _, _ => none

end Reading

/-- The value of a text that is one value and white space. -/
def Value.ofText? (text : String) : Option Value :=
  (Reading.readAll? {} text.toList).bind Reading.done?

end PatternAutomata.Json
