import PatternAutomata.Text.Decimal

/-!
# JSON tokens

The words of a JSON text. A string is kept as it is written between its quotes; `unescape?` reads
the characters that it stands for, and fails where a surrogate is not one of a pair. Of numbers only
the natural ones written without sign, fraction and exponent have a value.

## Main definitions

* `Json.token?` — the token at the front of a text.
* `Json.unescape?` — the characters of a string.
-/
namespace PatternAutomata.Json

inductive Token where
  | arrayOpen
  | arrayClose
  | objectOpen
  | objectClose
  | comma
  | colon
  | null
  | bool (b : Bool)
  | number (natural : Option Nat)
  | string (written : List Char)
  deriving DecidableEq, Repr, Inhabited

def isWhitespace (c : Char) : Bool :=
  c == ' ' || c == '\t' || c == '\n' || c == '\r'

def hexDigit? (c : Char) : Option Nat :=
  if isDigit c then some (c.toNat - '0'.toNat)
  else if 'a' ≤ c && c ≤ 'f' then some (c.toNat - 'a'.toNat + 10)
  else if 'A' ≤ c && c ≤ 'F' then some (c.toNat - 'A'.toNat + 10)
  else none

/-- The value of the four digits after `\u`. -/
def codeUnit? (a b c d : Char) : Option Nat := do
  return (((← hexDigit? a) * 16 + (← hexDigit? b)) * 16 + (← hexDigit? c)) * 16 + (← hexDigit? d)

/-- The character that a backslash and `c` stand for. -/
def escaped? : Char → Option Char
  | '"' => some '"'
  | '\\' => some '\\'
  | '/' => some '/'
  | 'b' => some '\x08'
  | 'f' => some '\x0c'
  | 'n' => some '\n'
  | 'r' => some '\r'
  | 't' => some '\t'
  | _ => none

/-- What is written before the closing quote. Controls of ASCII have to be escaped. -/
def quoted? : List Char → Option (List Char)
  | [] => none
  | '"' :: _ => some []
  | '\\' :: 'u' :: a :: b :: c :: d :: rest =>
    if (codeUnit? a b c d).isSome then
      (quoted? rest).map ('\\' :: 'u' :: a :: b :: c :: d :: ·)
    else none
  | '\\' :: c :: rest =>
    if (escaped? c).isSome then (quoted? rest).map ('\\' :: c :: ·) else none
  | c :: rest => if c.toNat < 0x20 then none else (quoted? rest).map (c :: ·)

def isHighSurrogate (unit : Nat) : Bool :=
  0xd800 ≤ unit && unit < 0xdc00

def isLowSurrogate (unit : Nat) : Bool :=
  0xdc00 ≤ unit && unit < 0xe000

/-- The characters that a string stands for. -/
def unescape? : List Char → Option (List Char)
  | [] => some []
  | '\\' :: 'u' :: a :: b :: c :: d :: rest => do
    let unit ← codeUnit? a b c d
    if isHighSurrogate unit then
      match rest with
      | '\\' :: 'u' :: e :: f :: g :: h :: rest =>
        let low ← codeUnit? e f g h
        guard (isLowSurrogate low)
        let c := Char.ofNat (0x10000 + (unit - 0xd800) * 0x400 + (low - 0xdc00))
        return c :: (← unescape? rest)
      | _ => none
    else
      guard (!isLowSurrogate unit)
      return Char.ofNat unit :: (← unescape? rest)
  | '\\' :: c :: rest => do return (← escaped? c) :: (← unescape? rest)
  | c :: rest => do return c :: (← unescape? rest)

/-- How many characters a fraction takes at the front of a text. -/
def fraction? : List Char → Option Nat
  | '.' :: rest =>
    let digits := rest.takeWhile isDigit
    if digits.isEmpty then none else some (1 + digits.length)
  | _ => some 0

/-- How many characters an exponent takes at the front of a text. -/
def exponent? : List Char → Option Nat
  | [] => some 0
  | c :: rest =>
    if c = 'e' || c = 'E' then
      let sign := if rest.head? = some '+' || rest.head? = some '-' then 1 else 0
      let digits := (rest.drop sign).takeWhile isDigit
      if digits.isEmpty then none else some (1 + sign + digits.length)
    else some 0

/-- The number at the front of a text and how many characters it takes. A zero has no digits after
it. -/
def number? (cs : List Char) : Option (Option Nat × Nat) := do
  let sign := if cs.head? = some '-' then 1 else 0
  let digits := (cs.drop sign).takeWhile isDigit
  guard (!digits.isEmpty && (digits.head? != some '0' || digits.length == 1))
  let whole := sign + digits.length
  let fraction ← fraction? (cs.drop whole)
  let exponent ← exponent? (cs.drop (whole + fraction))
  let natural := if sign + fraction + exponent = 0 then some (Text.decimalValue digits) else none
  return (natural, whole + fraction + exponent)

/-- The token that `c` begins, and how many of the characters that follow belong to it. -/
def token? (c : Char) (rest : List Char) : Option (Token × Nat) :=
  match c with
  | '[' => some (.arrayOpen, 0)
  | ']' => some (.arrayClose, 0)
  | '{' => some (.objectOpen, 0)
  | '}' => some (.objectClose, 0)
  | ',' => some (.comma, 0)
  | ':' => some (.colon, 0)
  | '"' => (quoted? rest).map fun written => (.string written, written.length + 1)
  | 'n' => if "ull".toList.isPrefixOf rest then some (.null, 3) else none
  | 't' => if "rue".toList.isPrefixOf rest then some (.bool true, 3) else none
  | 'f' => if "alse".toList.isPrefixOf rest then some (.bool false, 4) else none
  | c => (number? (c :: rest)).map fun (natural, length) => (.number natural, length - 1)

end PatternAutomata.Json
