import PatternAutomata.Text.Decimal

/-!
# Decimal numbers are read back

## Main statement

* `Text.unsigned?_toString` — a number that was written out is read again, if it is small enough.
-/
namespace PatternAutomata.Text

variable {n bound : Nat} {c : Char}

theorem isDigit_of_mem_toString (h : c ∈ (toString n).toList) : isDigit c = true := by
  rw [Nat.toString_eq_ofList_toDigits, String.toList_ofList] at h
  have hc := Nat.isDigit_of_mem_toDigits (by decide) (by decide) h
  simpa [isDigit, Char.isDigit, Char.le_def] using hc

theorem toString_ne_nil (n : Nat) : (toString n).toList ≠ [] := by
  rw [Nat.toString_eq_ofList_toDigits, String.toList_ofList]
  exact Nat.toDigits_ne_nil

theorem decimalValue_toString (n : Nat) : decimalValue (toString n).toList = n := by
  rw [Nat.toString_eq_ofList_toDigits, String.toList_ofList, decimalValue,
    ← Nat.ofDigitChars_eq_foldl, Nat.ofDigitChars_ten_toDigits]

/-- Digits that were written out are read back as their number. -/
theorem unsigned?_toString (h : n < bound) : unsigned? bound (toString n).toList = some n := by
  have hplus : (toString n).toList.head? ≠ some '+' := fun hhead =>
    absurd (isDigit_of_mem_toString (List.mem_of_head? hhead)) (by decide)
  have hall : (toString n).toList.all isDigit = true :=
    List.all_eq_true.2 fun c hc => isDigit_of_mem_toString hc
  simp only [unsigned?, if_neg hplus, decimalValue_toString]
  rw [if_pos ⟨toString_ne_nil n, hall, h⟩]

theorem lt_of_unsigned?_eq_some {cs : List Char} (h : unsigned? bound cs = some n) : n < bound := by
  unfold unsigned? at h
  extract_lets digits at h
  obtain ⟨⟨-, -, hlt⟩, heq⟩ := Option.ite_none_right_eq_some.1 h
  exact Option.some.inj heq ▸ hlt

theorem mem_of_unsigned? {bound n : Nat} {cs : List Char} {c : Char}
    (h : unsigned? bound cs = some n) (hc : c ∈ cs) : c = '+' ∨ isDigit c = true := by
  unfold unsigned? at h
  extract_lets digits at h
  obtain ⟨⟨-, hall, -⟩, -⟩ := Option.ite_none_right_eq_some.1 h
  have hall : ∀ d ∈ digits, isDigit d = true := List.all_eq_true.1 hall
  cases cs with
  | nil => cases hc
  | cons d ds =>
    by_cases hd : d = '+'
    · subst hd
      exact (List.mem_cons.1 hc).imp_right fun hc => hall c (by simpa [digits] using hc)
    · exact .inr (hall c (by simpa [digits, hd] using hc))

end PatternAutomata.Text
