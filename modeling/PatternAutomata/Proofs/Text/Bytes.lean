import PatternAutomata.CharClass
import PatternAutomata.Text.Offset

/-!
# The bytes of a text

An ASCII character is one byte of a text, its code, and no such byte stands in any other character.
So the bytes of a text may be searched for an ASCII character, which is then found where it begins.

## Main definitions

* `Text.bytes` — the bytes of a text.
* `Text.isDigitByte` — the bytes that are decimal digits.

## Main statements

* `Text.toNat_of_mem_utf8EncodeChar` — an ASCII byte belongs to an ASCII character.
* `Text.takeWhile_isDigitByte` — digits are found among the bytes of a text.
-/
namespace PatternAutomata.Text

/-- The bytes of a text, in order. -/
def bytes (text : String) : List UInt8 :=
  text.toByteArray.data.toList

/-- `0` to `9`. -/
def isDigitByte (b : UInt8) : Bool :=
  0x30 ≤ b && b ≤ 0x39

variable {c : Char} {b : UInt8}

theorem bytes_append (s t : String) : bytes (s ++ t) = bytes s ++ bytes t := by
  simp [bytes]

theorem bytes_ofList (cs : List Char) :
    bytes (String.ofList cs) = cs.flatMap String.utf8EncodeChar := by
  rw [bytes, String.toByteArray_ofList, List.utf8Encode, List.data_toByteArray]

theorem length_bytes (s : String) : (bytes s).length = s.utf8ByteSize := by
  rw [bytes, Array.length_toList]
  rfl

/-- The bytes of a text from a boundary on. -/
theorem drop_bytes (before : String) (cs : List Char) :
    (bytes (before ++ String.ofList cs)).drop before.utf8ByteSize =
      cs.flatMap String.utf8EncodeChar := by
  rw [bytes_append, ← length_bytes, List.drop_left, bytes_ofList]

/-- An ASCII character is its code. -/
theorem utf8EncodeChar_ascii (h : c.toNat < 0x80) :
    String.utf8EncodeChar c = [UInt8.ofNat c.toNat] := by
  have hle : c.val.toNat ≤ 0x7f := Nat.le_of_lt_succ h
  simp only [String.utf8EncodeChar, if_pos hle]
  rfl

/-- The bytes of any other character lie above ASCII. -/
theorem le_of_mem_utf8EncodeChar (h : 0x80 ≤ c.toNat) :
    ∀ b ∈ String.utf8EncodeChar c, 0x80 ≤ b := by
  have hlt : ¬c.val.toNat ≤ 0x7f := Nat.not_le.2 h
  simp only [String.utf8EncodeChar, if_neg hlt]
  split
  · simp [UInt8.le_iff_toNat_le]
    omega
  split <;>
  · simp [UInt8.le_iff_toNat_le]
    omega

/-- An ASCII byte belongs to the character that it is the code of. -/
theorem toNat_of_mem_utf8EncodeChar (hb : b ∈ String.utf8EncodeChar c) (h : b.toNat < 0x80) :
    c.toNat = b.toNat := by
  rcases Nat.lt_or_ge c.toNat 0x80 with hc | hc
  · rw [utf8EncodeChar_ascii hc, List.mem_singleton] at hb
    rw [hb, UInt8.toNat_ofNat', Nat.mod_eq_of_lt (by omega)]
  · have hle := UInt8.le_iff_toNat_le.1 (le_of_mem_utf8EncodeChar hc b hb)
    exact absurd h (Nat.not_lt.2 hle)

theorem isDigit_iff : isDigit c = true ↔ 0x30 ≤ c.toNat ∧ c.toNat ≤ 0x39 := by
  simp only [isDigit, Bool.and_eq_true, decide_eq_true_eq, Char.le_def, UInt32.le_iff_toNat_le]
  rfl

theorem isDigitByte_iff : isDigitByte b = true ↔ 0x30 ≤ b.toNat ∧ b.toNat ≤ 0x39 := by
  simp only [isDigitByte, Bool.and_eq_true, decide_eq_true_eq, UInt8.le_iff_toNat_le]
  rfl

/-- A byte is a digit if and only if it belongs to one. -/
theorem isDigitByte_of_mem (hb : b ∈ String.utf8EncodeChar c) : isDigitByte b = isDigit c := by
  rw [Bool.eq_iff_iff, isDigitByte_iff, isDigit_iff]
  constructor
  · intro h
    rwa [toNat_of_mem_utf8EncodeChar hb (by omega)]
  · intro h
    rw [utf8EncodeChar_ascii (by omega), List.mem_singleton] at hb
    rwa [hb, UInt8.toNat_ofNat', Nat.mod_eq_of_lt (by omega)]

/-- Digits are found among the bytes of a text. -/
theorem takeWhile_isDigitByte {ds cs : List Char} (hds : ∀ d ∈ ds, isDigit d = true)
    (hcs : ∀ c ∈ cs.head?, isDigit c = false) :
    ((ds ++ cs).flatMap String.utf8EncodeChar).takeWhile isDigitByte =
      ds.flatMap String.utf8EncodeChar := by
  have hdigits : ∀ b ∈ ds.flatMap String.utf8EncodeChar, isDigitByte b = true := by
    intro b hb
    obtain ⟨d, hd, hb⟩ := List.mem_flatMap.1 hb
    rw [isDigitByte_of_mem hb, hds d hd]
  rw [List.flatMap_append, List.takeWhile_append_of_pos hdigits, List.append_right_eq_self]
  cases cs with
  | nil => rfl
  | cons c cs =>
    obtain ⟨b, bs, hbs⟩ := List.exists_cons_of_ne_nil (String.utf8EncodeChar_ne_nil (c := c))
    have hb : isDigitByte b = isDigit c := isDigitByte_of_mem (by simp [hbs])
    rw [List.flatMap_cons, hbs, List.cons_append, List.takeWhile_cons_of_neg]
    rw [hb, hcs c rfl]
    exact Bool.false_ne_true

end PatternAutomata.Text
