import PatternAutomata.Proofs.CharSet.Parity

/-!
# Sets as pairs of words

The table of a set is kept in two words of 64 bits: the slot of the ASCII character with code `n`
is bit `n % 64` of word `n / 64`. Members are added to the words by loops over the codes, each turn
of which flips one bit. Whatever is added, the words stay those of the set.

## Main definitions

* `CharSet.Words` — two words, with what is done to them and what is asked of them.
* `CharSet.words` — the words of a set.
* `SetItem.addToWords` — adding a member to the words.

## Main statements

* `CharSet.words_flip`, `CharSet.words_toggleClass` — the words of a set with members added.
* `CharSet.contains_words` — membership read off the words.
* `SetItem.foldlM_addToWords` — the words of a set that is built from members.
-/
namespace PatternAutomata

namespace CharSet

/-- A set whose slots are the bits of two words. -/
structure Words where
  low : UInt64 := 0
  high : UInt64 := 0
  other : Bool := false
  negated : Bool := false
  deriving DecidableEq, Repr

namespace Words

/-- The word with only the bit of slot `n`. -/
def mask (n : Nat) : UInt64 :=
  1 <<< UInt64.ofNat (n % 64)

def flip (w : Words) (n : Nat) : Words :=
  if n / 64 = 0 then { w with low := w.low ^^^ mask n } else { w with high := w.high ^^^ mask n }

def toggle? (w : Words) (c : Char) : Option Words :=
  if isAscii c then some (w.flip c.toNat) else none

def toggleRange? (w : Words) (lo hi : Char) : Option Words :=
  if isAscii lo && isAscii hi then
    some ((List.range' lo.toNat (hi.toNat + 1 - lo.toNat)).foldl flip w)
  else none

/-- Goes through all codes and flips the slots of those whose characters are in the class. -/
def toggleClass (w : Words) (k : CharClass) : Words :=
  let w := (List.range 128).foldl (fun w n =>
    if k.contains (Char.ofNat n) false then w.flip n else w) w
  if coversOther k then { w with other := !w.other } else w

/-- The bit of slot `n`. -/
def slot (w : Words) (n : Nat) : Bool :=
  (if n / 64 = 0 then w.low else w.high) &&& mask n != 0

def inTable (w : Words) (c : Char) : Bool :=
  if isAscii c then w.slot c.toNat else w.other

def contains (w : Words) (c : Char) : Bool :=
  w.inTable c != w.negated

end Words

/-- The words in which the set is kept. -/
def words (s : CharSet) : Words :=
  ⟨s.lowWord, s.highWord, s.other, s.negated⟩

/-- Any two words are those of a set. -/
theorem words_ofWords (low high : UInt64) (other negated : Bool) :
    (ofWords low high other negated).words = ⟨low, high, other, negated⟩ := by
  have hlow : (high.toBitVec ++ low.toBitVec).extractLsb' 0 64 = low.toBitVec := by
    apply BitVec.eq_of_getLsbD_eq
    intro i hi
    rw [BitVec.getLsbD_extractLsb', BitVec.getLsbD_append]
    simp [hi]
  have hhigh : (high.toBitVec ++ low.toBitVec).extractLsb' 64 64 = high.toBitVec := by
    apply BitVec.eq_of_getLsbD_eq
    intro i hi
    rw [BitVec.getLsbD_extractLsb', BitVec.getLsbD_append]
    simp [hi]
  simp only [words, lowWord, highWord, ofWords, hlow, hhigh]

theorem words_empty (negated : Bool) : ({ negated } : CharSet).words = { negated } :=
  words_ofWords 0 0 false negated

theorem toBitVec_mask (n : Nat) : (Words.mask n).toBitVec = BitVec.twoPow 64 (n % 64) := by
  rw [Words.mask, UInt64.toBitVec_shiftLeft, BitVec.twoPow_eq]
  simp

/-- Of the two words, only the one that holds the slot is changed. -/
theorem extractLsb'_flip (s : CharSet) {n : Nat} (h : n < 128) (start : Nat) (hstart : 64 ∣ start) :
    (s.flip n).ascii.extractLsb' start 64 =
      if n / 64 = start / 64 then s.ascii.extractLsb' start 64 ^^^ (Words.mask n).toBitVec
      else s.ascii.extractLsb' start 64 := by
  apply BitVec.eq_of_getLsbD_eq
  intro i hi
  rw [toBitVec_mask]
  by_cases hn : n / 64 = start / 64
  · have hslot : n = start + i ↔ i = n % 64 := by omega
    simp [flip, hn, hi, BitVec.getLsbD_twoPow, hslot, h]
  · have hslot : n ≠ start + i := by omega
    simp [flip, hn, hi, BitVec.getLsbD_twoPow, hslot]

theorem words_flip (s : CharSet) {n : Nat} (h : n < 128) : (s.flip n).words = s.words.flip n := by
  have hlow := extractLsb'_flip s h 0 (by decide)
  have hhigh := extractLsb'_flip s h 64 (by decide)
  simp only [words, Words.flip, lowWord, highWord, hlow, hhigh]
  by_cases hn : n / 64 = 0
  · have hn' : n / 64 ≠ 64 / 64 := by omega
    rw [if_pos hn, if_neg hn', if_pos hn]
    rfl
  · have hn' : n / 64 = 64 / 64 := by omega
    rw [if_neg hn, if_pos hn', if_neg hn]
    rfl

theorem words_foldl_flip (s : CharSet) (ns : List Nat) (h : ∀ n ∈ ns, n < 128) :
    (ns.foldl flip s).words = ns.foldl Words.flip s.words := by
  induction ns generalizing s with
  | nil => rfl
  | cons n ns ih =>
    obtain ⟨hn, hns⟩ := List.forall_mem_cons.1 h
    rw [List.foldl_cons, List.foldl_cons, ih _ hns, words_flip s hn]

theorem words_toggle? (s : CharSet) (c : Char) :
    (s.toggle? c).map words = s.words.toggle? c := by
  simp only [toggle?, Words.toggle?]
  split
  case isTrue hc =>
    rw [Option.map_some, words_flip s (isAscii_iff.1 hc)]
  case isFalse => rfl

theorem words_toggleRange? (s : CharSet) (lo hi : Char) :
    (s.toggleRange? lo hi).map words = s.words.toggleRange? lo hi := by
  simp only [toggleRange?, Words.toggleRange?]
  split
  case isTrue hends =>
    have hhi : hi.toNat < 128 := isAscii_iff.1 (Bool.and_eq_true_iff.1 hends).2
    rw [Option.map_some, words_foldl_flip]
    intro n hn
    rw [List.mem_range'_1] at hn
    omega
  case isFalse => rfl

/-- The loop over all codes flips just those in the class. -/
theorem words_toggleClass (s : CharSet) (k : CharClass) :
    (s.toggleClass k).words = s.words.toggleClass k := by
  have hfold := words_foldl_flip s ((List.range 128).filter fun n =>
    k.contains (Char.ofNat n) false) fun n hn => List.mem_range.1 (List.mem_filter.1 hn).1
  rw [Words.toggleClass, ← List.foldl_filter, ← hfold]
  by_cases hk : coversOther k = true
  · rw [if_pos hk, toggleClass, hk, Bool.bne_true]
    rfl
  · rw [if_neg hk, toggleClass, Bool.eq_false_iff.2 hk, Bool.bne_false]

/-- A masked word tells one bit of it. -/
theorem and_mask_bne_zero (word : UInt64) (n : Nat) :
    (word &&& Words.mask n != 0) = word.toBitVec.getLsbD (n % 64) := by
  have hmod : n % 64 < 64 := Nat.mod_lt n (by decide)
  have hne : BitVec.twoPow 64 (n % 64) ≠ 0#64 := fun h => by
    have hbit := congrArg (fun x => x.getLsbD (n % 64)) h
    simp [hmod] at hbit
  have hand : word &&& Words.mask n = 0 ↔ word.toBitVec.getLsbD (n % 64) = false := by
    rw [← UInt64.toBitVec_inj, UInt64.toBitVec_and, toBitVec_mask, BitVec.and_twoPow]
    cases word.toBitVec.getLsbD (n % 64) <;> simp [hne]
  rw [Bool.eq_iff_iff, bne_iff_ne, Ne, hand, Bool.not_eq_false]

theorem slot_words (s : CharSet) {n : Nat} (h : n < 128) :
    s.words.slot n = s.ascii.getLsbD n := by
  rw [Words.slot, and_mask_bne_zero]
  simp only [words]
  split
  case isTrue hn =>
    have hn : n < 64 := by omega
    simp [lowWord, hn, Nat.mod_eq_of_lt hn]
  case isFalse hn =>
    have hmod : n % 64 < 64 := Nat.mod_lt n (by decide)
    have hn : 64 + n % 64 = n := by omega
    simp [highWord, hmod, hn]

theorem inTable_words (s : CharSet) (c : Char) : s.words.inTable c = s.inTable c := by
  simp only [Words.inTable, inTable]
  split
  case isTrue hc => exact slot_words s (isAscii_iff.1 hc)
  case isFalse => rfl

theorem contains_words (s : CharSet) (c : Char) : s.words.contains c = s.contains c := by
  rw [Words.contains, inTable_words]
  rfl

end CharSet

namespace SetItem

/-- Adds a member to the words of a set. -/
def addToWords (w : CharSet.Words) : SetItem → Except BuildError CharSet.Words
  | char c =>
    match w.toggle? c with
    | some w => .ok w
    | none => .error (.unsupportedSetMember c)
  | range lo hi =>
    if hi < lo then .error (.rangeOutOfOrder lo hi)
    else
      match w.toggleRange? lo hi with
      | some w => .ok w
      | none => .error (.unsupportedSetMember hi)
  | charClass k => .ok (w.toggleClass k)

theorem addToWords_words (s : CharSet) (item : SetItem) :
    item.addToWords s.words = (item.addTo s).map CharSet.words := by
  cases item with
  | char c =>
    rw [addToWords, addTo, ← CharSet.words_toggle?]
    cases s.toggle? c <;> rfl
  | range lo hi =>
    rw [addToWords, addTo, ← CharSet.words_toggleRange?]
    split
    · rfl
    · cases s.toggleRange? lo hi <;> rfl
  | charClass k =>
    rw [addToWords, addTo, ← CharSet.words_toggleClass]
    rfl

theorem foldlM_addToWords (items : List SetItem) (s : CharSet) :
    items.foldlM addToWords s.words = (items.foldlM addTo s).map CharSet.words :=
  foldlM_map_state addToWords_words items s

end SetItem

end PatternAutomata
