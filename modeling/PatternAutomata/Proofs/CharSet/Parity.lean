import Mathlib.Data.Nat.Init
import PatternAutomata.Pattern.Construction
import PatternAutomata.Proofs.Steps

/-!
# Sets obey parity

Every member of a set in brackets flips the slots of the characters that it covers. So a character
is in the table when an odd number of members cover it.

## Main statement

* `SetItem.contains_of_foldlM` — membership in a set that was built from members.
-/
namespace PatternAutomata

/-- Whether a character is meant by a member of a set. Line ends do not belong to the class of
everything else, whatever the flags. -/
def SetItem.covers (c : Char) : SetItem → Bool
  | char d => d == c
  | range lo hi => lo ≤ c && c ≤ hi
  | charClass k => k.contains c false

/-- Whether a character is accepted by a set with the given members: an odd number of them cover
it, or an even number if the set is negated. -/
def SetItem.admits (negated : Bool) (items : List SetItem) (c : Char) : Bool :=
  (items.countP (covers c) % 2 == 1) != negated

theorem isAscii_iff {c : Char} : isAscii c = true ↔ c.toNat < 128 :=
  decide_eq_true_iff

namespace CharSet

theorem le_iff_toNat {c d : Char} : c ≤ d ↔ c.toNat ≤ d.toNat := Iff.rfl

theorem toNat_ofNat {n : Nat} (h : n < 128) : (Char.ofNat n).toNat = n := by
  have hvalid : n.isValidChar := .inl (by omega)
  rw [Char.ofNat, dif_pos hvalid]
  rfl

theorem isAscii_ofNat {n : Nat} (h : n < 128) : isAscii (Char.ofNat n) = true := by
  rwa [isAscii_iff, toNat_ofNat h]

/-- A set is known by its mark and by the characters in its table. -/
theorem eq_of_inTable {s t : CharSet} (hneg : s.negated = t.negated)
    (h : ∀ c, s.inTable c = t.inTable c) : s = t := by
  obtain ⟨ascii, other, negated⟩ := s
  obtain ⟨ascii', other', negated'⟩ := t
  obtain rfl : negated = negated' := hneg
  obtain rfl : other = other' := h 'é'
  have hascii : ascii = ascii' := by
    apply BitVec.eq_of_getLsbD_eq
    intro n hn
    have hbit := h (Char.ofNat n)
    simpa only [inTable, isAscii_ofNat hn, if_true, toNat_ofNat hn] using hbit
  rw [hascii]

@[simp] theorem negated_flip (s : CharSet) (n : Nat) : (s.flip n).negated = s.negated := rfl

theorem inTable_flip (s : CharSet) (n : Nat) (c : Char) :
    (s.flip n).inTable c = (s.inTable c != (isAscii c && n == c.toNat)) := by
  by_cases hc : isAscii c = true
  · have hlt : c.toNat < 128 := isAscii_iff.1 hc
    by_cases hn : n = c.toNat
    · simp [inTable, flip, hc, hn, hlt]
    · have hbeq : (n == c.toNat) = false := beq_false_of_ne hn
      simp [inTable, flip, hc, hn, hbeq, BitVec.getLsbD_twoPow]
  · simp [inTable, flip, hc]

@[simp] theorem negated_foldl_flip (s : CharSet) (ns : List Nat) :
    (ns.foldl flip s).negated = s.negated := by
  induction ns generalizing s with
  | nil => rfl
  | cons n ns ih => rw [List.foldl_cons, ih, negated_flip]

/-- Flipping slots, none of them twice, turns membership round for their characters. -/
theorem inTable_foldl_flip (s : CharSet) {ns : List Nat} (hns : ns.Nodup) (c : Char) :
    (ns.foldl flip s).inTable c = (s.inTable c != (isAscii c && ns.contains c.toNat)) := by
  induction ns generalizing s with
  | nil => simp
  | cons n ns ih =>
    obtain ⟨hn, hns⟩ := List.nodup_cons.1 hns
    rw [List.foldl_cons, ih _ hns, inTable_flip]
    by_cases hc : n = c.toNat
    · subst hc
      simp [hn]
    · have hbeq : (n == c.toNat) = false := beq_false_of_ne hc
      have hbeq' : (c.toNat == n) = false := beq_false_of_ne (Ne.symm hc)
      simp only [hbeq, Bool.and_false, Bool.bne_false, List.contains_cons, hbeq', Bool.false_or]

theorem inTable_toggle? {s t : CharSet} {d : Char} (h : s.toggle? d = some t) (c : Char) :
    t.inTable c = (s.inTable c != (SetItem.char d).covers c) := by
  simp only [toggle?] at h
  split at h
  case isFalse => cases h
  case isTrue hd =>
    obtain rfl := Option.some.inj h
    rw [inTable_flip]
    by_cases hdc : d = c
    · simp [SetItem.covers, hd, ← hdc]
    · have hbeq : (d == c) = false := beq_false_of_ne hdc
      have hbeq' : (d.toNat == c.toNat) = false :=
        beq_false_of_ne fun h => hdc (Char.toNat_inj.1 h)
      simp [SetItem.covers, hbeq, hbeq']

theorem inTable_toggleRange? {s t : CharSet} {lo hi : Char} (h : s.toggleRange? lo hi = some t)
    (c : Char) : t.inTable c = (s.inTable c != (SetItem.range lo hi).covers c) := by
  simp only [toggleRange?] at h
  split at h
  case isFalse => cases h
  case isTrue hends =>
    obtain rfl := Option.some.inj h
    have hhi : isAscii hi = true := (Bool.and_eq_true_iff.1 hends).2
    rw [inTable_foldl_flip _ List.nodup_range']
    congr 1
    have hlt : hi.toNat < 128 := isAscii_iff.1 hhi
    rw [Bool.eq_iff_iff]
    simp only [SetItem.covers, Bool.and_eq_true, decide_eq_true_eq, List.contains_iff_mem,
      List.mem_range'_1, isAscii, le_iff_toNat]
    omega

theorem coversOther_eq_contains {k : CharClass} {c : Char} (hc : isAscii c = false) :
    coversOther k = k.contains c false := by
  have hge : 128 ≤ c.toNat := by simpa [isAscii] using hc
  have hne {d : Char} (hd : d.toNat < 128) : c ≠ d := fun h => by
    subst h
    omega
  have hrange {lo hi : Char} (hd : hi.toNat < 128) : (lo ≤ c && c ≤ hi) = false := by
    have : ¬c ≤ hi := fun h => by
      have := le_iff_toNat.1 h
      omega
    simp [this]
  have hdigit : isDigit c = false := hrange (by decide)
  have hspace : isSpace c = false := by simp [isSpace, hne]
  have hword : isWord c = false := by
    simp only [isWord, hdigit, hrange (show 'z'.toNat < 128 by decide),
      hrange (show 'Z'.toNat < 128 by decide), Bool.or_false]
    simp [hne]
  cases k <;>
    simp [CharClass.contains, coversOther, CharClass.isComplement, hdigit, hspace, hword, hne]

theorem inTable_toggleClass (s : CharSet) (k : CharClass) (c : Char) :
    (s.toggleClass k).inTable c = (s.inTable c != (SetItem.charClass k).covers c) := by
  by_cases hc : isAscii c = true
  · have hlt : c.toNat < 128 := isAscii_iff.1 hc
    have h := inTable_foldl_flip s ((@List.nodup_range 128).filter fun n =>
      k.contains (Char.ofNat n) false) c
    simp only [inTable, hc, if_true] at h ⊢
    simp only [toggleClass, h, SetItem.covers]
    congr 1
    rw [Bool.eq_iff_iff]
    simp [hlt]
  · rw [Bool.not_eq_true] at hc
    have h := inTable_foldl_flip s ((@List.nodup_range 128).filter fun n =>
      k.contains (Char.ofNat n) false) c
    simp only [inTable, hc, Bool.false_and, Bool.bne_false] at h ⊢
    simp only [Bool.false_eq_true, if_false] at h ⊢
    simp only [toggleClass, h, SetItem.covers, coversOther_eq_contains hc]

end CharSet

namespace SetItem

theorem inTable_addTo {s t : CharSet} {item : SetItem} (h : addTo s item = .ok t) (c : Char) :
    t.inTable c = (s.inTable c != item.covers c) := by
  cases item with
  | char d =>
    simp only [addTo] at h
    split at h
    · obtain rfl := Except.ok.inj h
      exact CharSet.inTable_toggle? ‹_› c
    · cases h
  | range lo hi =>
    simp only [addTo] at h
    split at h
    · cases h
    · split at h
      · obtain rfl := Except.ok.inj h
        exact CharSet.inTable_toggleRange? ‹_› c
      · cases h
  | charClass k =>
    obtain rfl := Except.ok.inj h
    exact CharSet.inTable_toggleClass s k c

theorem negated_addTo {s t : CharSet} {item : SetItem} (h : addTo s item = .ok t) :
    t.negated = s.negated := by
  cases item with
  | char d => grind [addTo, CharSet.toggle?, CharSet.negated_flip]
  | range lo hi => grind [addTo, CharSet.toggleRange?, CharSet.negated_foldl_flip]
  | charClass k => grind [addTo, CharSet.toggleClass, CharSet.negated_foldl_flip]

theorem negated_foldlM_addTo {items : List SetItem} {s t : CharSet}
    (h : items.foldlM addTo s = .ok t) : t.negated = s.negated :=
  foldlM_invariant (fun u => u.negated = s.negated)
    (fun _ _ _ hs hadd => (negated_addTo hadd).trans hs) rfl h

/-- Members turn membership round for every character that an odd number of them cover. -/
theorem inTable_foldlM_addTo {items : List SetItem} {s t : CharSet}
    (h : items.foldlM addTo s = .ok t) (c : Char) :
    t.inTable c = (s.inTable c != (items.countP (covers c) % 2 == 1)) := by
  induction items generalizing s with
  | nil =>
    obtain rfl := Except.ok.inj h
    simp
  | cons item items ih =>
    obtain ⟨u, hadd, h⟩ := exists_of_foldlM_cons_eq_ok h
    rw [ih h, inTable_addTo hadd, List.countP_cons]
    cases item.covers c <;> grind

/-- A set that was built from members accepts a character as parity says. -/
theorem contains_of_foldlM {items : List SetItem} {negated : Bool} {s : CharSet}
    (h : items.foldlM addTo { negated } = .ok s) (c : Char) :
    s.contains c = admits negated items c := by
  rw [CharSet.contains, admits, negated_foldlM_addTo h, inTable_foldlM_addTo h]
  simp [CharSet.inTable]

end SetItem

end PatternAutomata
