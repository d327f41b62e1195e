import PatternAutomata.Proofs.CharSet.Words
import PatternAutomata.Proofs.Pattern.Buildable

/-!
# The edge of a set in brackets

A set whose members are in order is built as a single edge. The members decide by parity which
characters the edge accepts, so neither their order nor a member that stands there twice matters.

## Main statement

* `Fragment.set_by_parity` — the edge of a set, and the characters that it accepts.
-/
namespace PatternAutomata.Fragment

variable {items items' : List SetItem}

theorem exists_set_eq_edge (h : ∀ i ∈ items, i.IsOrdered) (negated : Bool) :
    ∃ s, items.foldlM SetItem.addTo { negated } = .ok s ∧ set negated items = edge (.set s) := by
  obtain ⟨s, hs⟩ := SetItem.exists_foldlM_addTo h { negated }
  refine ⟨s, hs, ?_⟩
  funext entry a
  rw [set, hs]
  rfl

/-- Members that agree in parity about every character make the same set. -/
theorem set_congr (h : ∀ i ∈ items, i.IsOrdered) (h' : ∀ i ∈ items', i.IsOrdered)
    (hparity : ∀ c, items'.countP (SetItem.covers c) % 2 = items.countP (SetItem.covers c) % 2)
    (negated : Bool) : set negated items' = set negated items := by
  obtain ⟨s, hs, hset⟩ := exists_set_eq_edge h negated
  obtain ⟨s', hs', hset'⟩ := exists_set_eq_edge h' negated
  have heq : s' = s := by
    apply CharSet.eq_of_inTable
    · rw [SetItem.negated_foldlM_addTo hs', SetItem.negated_foldlM_addTo hs]
    · intro c
      rw [SetItem.inTable_foldlM_addTo hs', SetItem.inTable_foldlM_addTo hs, hparity]
  rw [hset', hset, heq]

/-- Members without a fault are built as one edge, labelled with a set. It accepts a character, in
ASCII or not, if an odd number of members cover it, or else if the set is negated; and so says the
test on the two words of the set, to which the members are added one by one. The set stays the same
when its members are reordered, and when one member is appended two more times. -/
theorem set_by_parity (h : ∀ i ∈ items, i.IsOrdered) (negated : Bool) :
    (∃ s, set negated items = edge (.set s) ∧
      items.foldlM SetItem.addToWords { negated } = .ok s.words ∧
      ∀ c, s.words.contains c =
          (decide (items.countP (SetItem.covers c) % 2 = 1) != negated) ∧
        ∀ dotAll, (Label.set s).accepts c dotAll = s.words.contains c) ∧
      (∀ items', items'.Perm items → set negated items' = set negated items) ∧
      ∀ item, item.IsOrdered → set negated (items ++ [item, item]) = set negated items := by
  refine ⟨?edge, ?perm, ?twice⟩
  case edge =>
    obtain ⟨s, hs, hset⟩ := exists_set_eq_edge h negated
    refine ⟨s, hset, ?_, fun c => ⟨?_, fun dotAll => ?_⟩⟩
    · rw [← CharSet.words_empty, SetItem.foldlM_addToWords, hs]
      rfl
    · rw [CharSet.contains_words, SetItem.contains_of_foldlM hs]
      rfl
    · exact (CharSet.contains_words s c).symm
  case perm =>
    intro items' hperm
    refine set_congr h (fun i hi => h i (hperm.mem_iff.1 hi)) (fun c => ?_) negated
    rw [hperm.countP_eq]
  case twice =>
    intro item hitem
    have htwice : ∀ i ∈ items ++ [item, item], i.IsOrdered := by
      intro i hi
      rcases List.mem_append.1 hi with hi | hi
      · exact h i hi
      · obtain rfl : i = item := by simpa using hi
        exact hitem
    refine set_congr h htwice (fun c => ?_) negated
    rw [List.countP_append, List.countP_cons, List.countP_cons, List.countP_nil]
    split <;> omega

/-- A range that goes on from the one word to the other, a class that has characters outside ASCII,
a range with a character that stands there again, and the last ASCII character: `[?-@\W^-~~\x7f]`. -/
def overlapping : List SetItem :=
  [.range '?' '@', .charClass .notWord, .range '^' '~', .char '~', .char '\x7f']

/-- Two members cover `@` and the last ASCII character, three cover `~`, and the class alone covers
what is outside ASCII. -/
theorem set_by_parity_overlapping :
    (∀ i ∈ overlapping, i.IsOrdered) ∧
      (∃ s, set true overlapping = edge (.set s) ∧
        ∀ dotAll, (Label.set s).accepts '@' dotAll = true ∧
          (Label.set s).accepts '\x7f' dotAll = true ∧
          (Label.set s).accepts '~' dotAll = false ∧ (Label.set s).accepts 'ж' dotAll = false) ∧
      set true overlapping.reverse = set true overlapping ∧
      set true (overlapping ++ [.char '~', .char '~']) = set true overlapping := by
  have hordered : ∀ i ∈ overlapping, i.IsOrdered := by
    simp [overlapping, SetItem.IsOrdered, isAscii]
  obtain ⟨⟨s, hset, -, haccepts⟩, hperm, htwice⟩ := set_by_parity hordered true
  refine ⟨hordered, ⟨s, hset, fun dotAll => ?_⟩, hperm _ (List.reverse_perm _),
    htwice (.char '~') (by simp [SetItem.IsOrdered, isAscii])⟩
  have hparity (c : Char) := ((haccepts c).2 dotAll).trans (haccepts c).1
  rw [hparity, hparity, hparity, hparity]
  decide

end PatternAutomata.Fragment
