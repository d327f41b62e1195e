import PatternAutomata.Proofs.Pattern.Matching

/-!
# Pieces of a text

Pieces that lie one behind the other make up one piece, and a text is cut at an offset in one way
only.

## Main statements

* `Text.slice?_append` — the piece from the start of one piece to the end of the next.
* `Text.splice?_append` — a piece is replaced.
* `Text.charAt_unique` — only one character ends at an offset.
-/
namespace PatternAutomata.Text

variable {text part part' : String} {i j k : Nat}

/-- Of two ways to cut a text in two, the later one cuts the second part of the earlier one. -/
theorem exists_between {a b c d : String} (h : a ++ b = c ++ d)
    (hle : a.utf8ByteSize ≤ c.utf8ByteSize) : ∃ mid, c = a ++ mid ∧ b = mid ++ d := by
  have hlist : a.toList ++ b.toList = c.toList ++ d.toList := by
    rw [← String.toList_append, h, String.toList_append]
  rcases List.append_eq_append_iff.1 hlist with ⟨mid, hc, hb⟩ | ⟨mid, ha, hd⟩
  · refine ⟨String.ofList mid, ?_, ?_⟩ <;> apply String.toList_injective <;> simpa
  · have ha' : a = c ++ String.ofList mid := String.toList_injective (by simpa using ha)
    have hmid : (String.ofList mid).utf8ByteSize = 0 := by
      have := congrArg String.utf8ByteSize ha'
      rw [String.utf8ByteSize_append] at this
      omega
    rw [String.utf8ByteSize_eq_zero_iff] at hmid
    rw [hmid, String.append_empty] at ha'
    subst ha'
    exact ⟨"", by simp, by simpa using String.append_right_inj _ |>.1 h⟩

theorem eq_of_append_eq {a b c d : String} (h : a ++ b = c ++ d)
    (hsize : a.utf8ByteSize = c.utf8ByteSize) : a = c ∧ b = d := by
  obtain ⟨mid, rfl, rfl⟩ := exists_between h (Nat.le_of_eq hsize)
  have hmid : mid.utf8ByteSize = 0 := by
    rw [String.utf8ByteSize_append] at hsize
    omega
  rw [String.utf8ByteSize_eq_zero_iff] at hmid
  simp [hmid]

theorem isBoundary_iff {offset : Nat} :
    IsBoundary text offset ↔
      ∃ before after, text = before ++ after ∧ before.utf8ByteSize = offset := by
  rw [IsBoundary, String.Pos.Raw.isValid_iff_exists_append]
  constructor
  · rintro ⟨before, after, rfl, h⟩
    exact ⟨before, after, rfl, (congrArg String.Pos.Raw.byteIdx h).symm⟩
  · rintro ⟨before, after, rfl, rfl⟩
    exact ⟨before, after, rfl, rfl⟩

/-- A place at or behind another one lies behind some of the characters that follow that. -/
theorem exists_take {before after : String} {offset : Nat}
    (h : IsBoundary (before ++ after) offset) (hle : before.utf8ByteSize ≤ offset) :
    ∃ n < after.length + 1,
      offset = before.utf8ByteSize + (String.ofList (after.toList.take n)).utf8ByteSize := by
  obtain ⟨before', after', heq, rfl⟩ := isBoundary_iff.1 h
  obtain ⟨mid, rfl, rfl⟩ := exists_between heq hle
  refine ⟨mid.length, ?_, ?_⟩
  · rw [String.length_append]
    omega
  · rw [String.utf8ByteSize_append, String.toList_append, ← String.length_toList,
      List.take_left, String.ofList_toList]

theorem slice?_self (h : IsBoundary text i) : slice? text i i = some "" := by
  obtain ⟨before, after, rfl, rfl⟩ := isBoundary_iff.1 h
  exact slice?_eq_some_iff.2 ⟨before, after, by simp, rfl, by simp⟩

/-- A piece and the piece that follows it. -/
theorem slice?_append (h : slice? text i j = some part) (h' : slice? text j k = some part') :
    slice? text i k = some (part ++ part') := by
  obtain ⟨before, after, rfl, rfl, rfl⟩ := slice?_eq_some_iff.1 h
  obtain ⟨before', after', heq, hsize, rfl⟩ := slice?_eq_some_iff.1 h'
  rw [← String.append_assoc] at heq
  obtain ⟨rfl, rfl⟩ := eq_of_append_eq heq hsize.symm
  exact slice?_eq_some_iff.2 ⟨before, after', by simp [String.append_assoc], rfl,
    by simp [String.append_assoc]⟩

/-- A piece that lies between two others is replaced, and the others stay. -/
theorem splice?_append (before part after replacement : String) :
    splice? (before ++ (part ++ after)) before.utf8ByteSize (before ++ part).utf8ByteSize
        replacement = some (before ++ replacement ++ after) := by
  obtain ⟨p, hp, hs⟩ := @position?_append before (part ++ after)
  obtain ⟨q, hq⟩ : ∃ q : (before ++ (part ++ after)).Pos, q.Splits (before ++ part) after :=
    ⟨_, String.Pos.splits_ofEqAppend (by rw [String.append_assoc])⟩
  have hq' : position? (before ++ (part ++ after)) (before ++ part).utf8ByteSize = some q :=
    position?_eq_some_iff.2 (by rw [hq.offset_eq_rawEndPos]; rfl)
  obtain ⟨hle, -⟩ := String.copy_slice_eq_iff_splits.2 ⟨before, after, hs, hq⟩
  rw [splice?, hp, Option.bind_some, hq', Option.bind_some, if_pos hle, hs.copy_sliceTo_eq,
    hq.copy_sliceFrom_eq]

/-- The piece is a single character. -/
theorem slice?_eq_singleton_iff {c : Char} :
    slice? text i j = some (String.singleton c) ↔
      charAt text i = some c ∧ j = i + c.utf8Size := by
  rw [slice?_eq_some_iff, charAt_eq_some_iff]
  constructor
  · rintro ⟨before, after, rfl, rfl, rfl⟩
    exact ⟨⟨before, after, rfl, rfl⟩, by simp⟩
  · rintro ⟨⟨before, after, rfl, rfl⟩, rfl⟩
    exact ⟨before, after, rfl, rfl, by simp⟩

/-- Only one character ends at an offset. -/
theorem charAt_unique {c d : Char} (h : charAt text i = some c) (h' : charAt text j = some d)
    (heq : i + c.utf8Size = j + d.utf8Size) : i = j := by
  have hbefore {i : Nat} {c : Char} (h : charAt text i = some c) :
      charBefore text (i + c.utf8Size) = some c := by
    obtain ⟨before, after, rfl, rfl⟩ := charAt_eq_some_iff.1 h
    exact charBefore_eq_some_iff.2 ⟨before, after, (String.append_assoc ..).symm, by simp⟩
  have hc := hbefore h
  rw [heq, hbefore h'] at hc
  obtain rfl := Option.some.inj hc
  omega

end PatternAutomata.Text
