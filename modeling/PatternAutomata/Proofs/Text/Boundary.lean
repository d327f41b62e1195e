import Mathlib.Data.List.Sort
import PatternAutomata.Proofs.Text.Slice

/-!
# Where characters begin

The offsets at which the characters of a text begin are its boundaries, but for the end of the
text. One after the other they are found byte by byte.

## Main definitions

* `Text.startsAt` — the offsets from a given one on at which characters begin.
* `Text.boundaryFrom` — the first boundary at or after an offset, found byte by byte.

## Main statements

* `Text.mem_startsAt_iff` — which offsets these are.
* `Text.startsAt_of_lt`, `Text.startsAt_of_le` — how they are found.
-/
namespace PatternAutomata.Text

variable {text : String} {offset o n : Nat}

theorem le_of_mem_startsFrom {cs : List Char} (h : o ∈ startsFrom offset cs) : offset ≤ o := by
  induction cs generalizing offset with
  | nil => cases h
  | cons c cs ih =>
    rcases List.mem_cons.1 h with rfl | h
    · exact le_rfl
    · exact (Nat.le_add_right _ _).trans (ih h)

theorem pairwise_startsFrom (offset : Nat) (cs : List Char) :
    (startsFrom offset cs).Pairwise (· < ·) := by
  induction cs generalizing offset with
  | nil => exact .nil
  | cons c cs ih =>
    refine .cons (fun o ho => ?_) (ih _)
    have hle := le_of_mem_startsFrom ho
    have hc := c.utf8Size_pos
    omega

/-- Behind `before` characters begin at the boundaries that lie before the end: of the characters
there, none or at least the first lies before a boundary. -/
theorem mem_startsFrom_iff {before : String} {cs : List Char} :
    o ∈ startsFrom before.utf8ByteSize cs ↔
      before.utf8ByteSize ≤ o ∧ IsBoundary (before ++ String.ofList cs) o ∧
        o < (before ++ String.ofList cs).utf8ByteSize := by
  induction cs generalizing before with
  | nil =>
    simp only [startsFrom, List.not_mem_nil, String.ofList_nil, String.append_empty, false_iff]
    omega
  | cons c cs ih =>
    have htext : before ++ String.ofList (c :: cs) =
        (before ++ String.singleton c) ++ String.ofList cs := by
      rw [String.ofList_cons, String.append_assoc]
    have hsize : (before ++ String.singleton c).utf8ByteSize =
        before.utf8ByteSize + c.utf8Size := by simp
    have hc := c.utf8Size_pos
    rw [startsFrom, List.mem_cons, ← hsize, ih, htext]
    constructor
    · rintro (rfl | ⟨hle, hbound, hlt⟩)
      · refine ⟨le_rfl, isBoundary_iff.2 ⟨before, _, String.append_assoc .., rfl⟩, ?_⟩
        rw [String.utf8ByteSize_append]
        omega
      · exact ⟨by omega, hbound, hlt⟩
    · rintro ⟨hle, hbound, hlt⟩
      rw [← htext] at hbound
      obtain ⟨n, -, ho⟩ := exists_take hbound hle
      cases n with
      | zero => exact .inl (by simpa using ho)
      | succ n =>
        refine .inr ⟨?_, htext ▸ hbound, hlt⟩
        rw [String.toList_ofList, List.take_succ_cons, String.ofList_cons,
          String.utf8ByteSize_append, String.utf8ByteSize_singleton] at ho
        omega

theorem mem_starts_iff : o ∈ starts text ↔ IsBoundary text o ∧ o < text.utf8ByteSize := by
  have h := @mem_startsFrom_iff o "" text.toList
  rw [String.empty_append, String.ofList_toList, String.utf8ByteSize_empty,
    and_iff_right (Nat.zero_le o)] at h
  exact h

theorem pairwise_starts (text : String) : (starts text).Pairwise (· < ·) :=
  pairwise_startsFrom 0 text.toList

theorem mem_dropWhile_lt_iff {l : List Nat} (h : l.Pairwise (· < ·)) :
    o ∈ l.dropWhile (· < n) ↔ o ∈ l ∧ n ≤ o := by
  induction l with
  | nil => simp
  | cons a l ih =>
    obtain ⟨ha, hl⟩ := List.pairwise_cons.1 h
    by_cases hn : a < n
    · rw [List.dropWhile_cons_of_pos (by simpa using hn), ih hl, List.mem_cons]
      refine ⟨fun ⟨ho, hle⟩ => ⟨.inr ho, hle⟩, fun ⟨ho, hle⟩ => ⟨ho.resolve_left ?_, hle⟩⟩
      omega
    · rw [List.dropWhile_cons_of_neg (by simpa using hn), and_iff_left_of_imp]
      intro ho
      rcases List.mem_cons.1 ho with rfl | ho
      · exact Nat.le_of_not_lt hn
      · exact (Nat.le_of_not_lt hn).trans (ha o ho).le

/-- The offsets at which characters begin, from `offset` on. -/
def startsAt (text : String) (offset : Nat) : List Nat :=
  (starts text).dropWhile (· < offset)

theorem startsAt_zero (text : String) : startsAt text 0 = starts text := by
  unfold startsAt
  cases starts text <;> simp

theorem pairwise_startsAt (text : String) (offset : Nat) :
    (startsAt text offset).Pairwise (· < ·) :=
  (pairwise_starts text).sublist (List.dropWhile_sublist _)

theorem mem_startsAt_iff :
    o ∈ startsAt text offset ↔ offset ≤ o ∧ IsBoundary text o ∧ o < text.utf8ByteSize := by
  rw [startsAt, mem_dropWhile_lt_iff (pairwise_starts text), mem_starts_iff, and_comm]

theorem dropWhile_startsAt :
    (startsAt text offset).dropWhile (· < n) = startsAt text (max offset n) := by
  apply List.Pairwise.eq_of_mem_iff
    ((pairwise_startsAt text offset).sublist (List.dropWhile_sublist _)) (pairwise_startsAt text _)
  intro o
  rw [mem_dropWhile_lt_iff (pairwise_startsAt text offset), mem_startsAt_iff, mem_startsAt_iff,
    Nat.max_le]
  tauto

/-- The first boundary at or after `offset`, if that lies before the end of the text. -/
def boundaryFrom (text : String) (offset : Nat) : Nat :=
  if _h : offset < text.utf8ByteSize ∧ ¬IsBoundary text offset then boundaryFrom text (offset + 1)
  else offset
termination_by text.utf8ByteSize - offset

theorem le_boundaryFrom (text : String) (offset : Nat) : offset ≤ boundaryFrom text offset := by
  fun_induction boundaryFrom text offset with
  | case1 offset h ih => omega
  | case2 offset h => exact le_rfl

theorem isBoundary_boundaryFrom (h : boundaryFrom text offset < text.utf8ByteSize) :
    IsBoundary text (boundaryFrom text offset) := by
  fun_induction boundaryFrom text offset with
  | case1 offset hnext ih => exact ih h
  | case2 offset hstop =>
    by_contra hbound
    exact hstop ⟨h, hbound⟩

theorem boundaryFrom_le (hbound : IsBoundary text o) (hle : offset ≤ o) :
    boundaryFrom text offset ≤ o := by
  fun_induction boundaryFrom text offset with
  | case1 offset h ih =>
    apply ih
    rcases Nat.lt_or_eq_of_le hle with hlt | rfl
    · exact hlt
    · exact absurd hbound h.2
  | case2 offset h => exact hle

theorem startsAt_of_lt (h : boundaryFrom text offset < text.utf8ByteSize) :
    startsAt text offset =
      boundaryFrom text offset :: startsAt text (boundaryFrom text offset + 1) := by
  have hle := le_boundaryFrom text offset
  apply List.Pairwise.eq_of_mem_iff (pairwise_startsAt text offset)
  · refine .cons (fun o ho => ?_) (pairwise_startsAt text _)
    exact (mem_startsAt_iff.1 ho).1
  · intro o
    rw [List.mem_cons, mem_startsAt_iff, mem_startsAt_iff]
    constructor
    · rintro ⟨hoffset, hbound, hlt⟩
      rcases Nat.lt_or_eq_of_le (boundaryFrom_le hbound hoffset) with hafter | rfl
      · exact .inr ⟨hafter, hbound, hlt⟩
      · exact .inl rfl
    · rintro (rfl | ⟨hafter, hbound, hlt⟩)
      · exact ⟨hle, isBoundary_boundaryFrom h, h⟩
      · exact ⟨by omega, hbound, hlt⟩

theorem startsAt_of_le (h : text.utf8ByteSize ≤ boundaryFrom text offset) :
    startsAt text offset = [] := by
  rw [List.eq_nil_iff_forall_not_mem]
  intro o ho
  obtain ⟨hoffset, hbound, hlt⟩ := mem_startsAt_iff.1 ho
  have hle := boundaryFrom_le hbound hoffset
  omega

theorem startsAt_boundaryFrom (text : String) (offset : Nat) :
    startsAt text (boundaryFrom text offset) = startsAt text offset := by
  apply List.Pairwise.eq_of_mem_iff (pairwise_startsAt text _) (pairwise_startsAt text offset)
  intro o
  rw [mem_startsAt_iff, mem_startsAt_iff]
  constructor
  · rintro ⟨hle, h⟩
    exact ⟨(le_boundaryFrom text offset).trans hle, h⟩
  · rintro ⟨hle, hbound, hlt⟩
    exact ⟨boundaryFrom_le hbound hle, hbound, hlt⟩

end PatternAutomata.Text
