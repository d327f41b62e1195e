import Mathlib.Algebra.Group.Nat.Defs
import PatternAutomata.Automaton.Listing
import PatternAutomata.Automaton.Reader
import PatternAutomata.Proofs.Text.Decimal
import PatternAutomata.Proofs.Text.Line

/-!
# Rules that are read back

The line of an edge is a rule with one label. A label is read back as it was unless a character of
it is taken for a line end or for a blank between labels, or it is a range that holds nothing.

## Main definitions

* `Label.Legible` — the labels that are read back.
* `Label.Readable`, `Label.reread` — the labels that are read, and what as.

## Main statements

* `Label.Legible.readLabels_shown` — a legible label is read back.
* `Label.exists_error_of_range` — the text of an illegible range is rejected.
* `Automaton.readRule_ruleText` — of a rule with states that there are, only the labels matter.
-/
namespace PatternAutomata

namespace Automaton

variable {cs rest : List Char}

theorem cutAtBlank_append (h : ' ' ∉ cs) : cutAtBlank (cs ++ ' ' :: rest) = (cs, rest) := by
  have hpos : ∀ c ∈ cs, decide (c ≠ ' ') = true := fun c hc => by
    simpa using fun h' : c = ' ' => h (h' ▸ hc)
  obtain ⟨htake, hdrop⟩ := Text.takeWhile_run rest hpos (c := ' ') (by simp)
  rw [cutAtBlank, htake, hdrop]
  rfl

theorem cutAtBlank_of_not_mem (h : ' ' ∉ cs) : cutAtBlank cs = (cs, []) := by
  have hpos : ∀ c ∈ cs, decide (c ≠ ' ') = true := fun c hc => by
    simpa using fun h' : c = ' ' => h (h' ▸ hc)
  rw [cutAtBlank, List.dropWhile_eq_nil_iff.2 hpos, List.takeWhile_eq_self_iff.2 hpos]
  rfl

theorem cutAtArrow?_append (h : '-' ∉ cs) :
    cutAtArrow? (cs ++ '-' :: '>' :: rest) = some (cs, rest) := by
  induction cs with
  | nil => rfl
  | cons c cs ih =>
    rw [List.mem_cons, not_or] at h
    rw [List.cons_append, cutAtArrow?, ih h.2]
    · rfl
    · rintro rest' rfl
      exact absurd rfl h.1

theorem not_mem_cutAtBlank (cs : List Char) : ' ' ∉ (cutAtBlank cs).1 := fun h => by
  simpa using List.mem_takeWhile_imp h

theorem cutAtBlank_cons {c : Char} (hc : c ≠ ' ') (cs : List Char) :
    cutAtBlank (c :: cs) = (c :: (cutAtBlank cs).1, (cutAtBlank cs).2) := by
  simp [cutAtBlank, hc]

/-- What is cut at a blank has no blank, or one where it was cut. -/
theorem cutAtBlank_cases (cs : List Char) :
    cs = (cutAtBlank cs).1 ∧ (cutAtBlank cs).2 = [] ∨
      cs = (cutAtBlank cs).1 ++ ' ' :: (cutAtBlank cs).2 := by
  induction cs with
  | nil => exact .inl ⟨rfl, rfl⟩
  | cons c cs ih =>
    by_cases hc : c = ' '
    · subst hc
      exact .inr rfl
    · rw [cutAtBlank_cons hc]
      exact ih.imp (And.imp_left (congrArg (c :: ·))) (congrArg (c :: ·))

theorem eq_of_cutAtArrow? {cs before rest : List Char} (h : cutAtArrow? cs = some (before, rest)) :
    cs = before ++ '-' :: '>' :: rest := by
  fun_induction cutAtArrow? cs generalizing before with
  | case1 => cases h
  | case2 =>
    cases h
    rfl
  | case3 c cs _ ih =>
    obtain ⟨⟨before, rest⟩, hcut, h⟩ := Option.map_eq_some_iff.1 h
    cases h
    rw [ih hcut, List.cons_append]

end Automaton

/-! ### Labels -/

namespace Label

open Automaton (readLabels)

/-- The label is not taken for anything else in a listing. -/
def Legible : Label → Prop
  | epsilon _ | charClass _ => True
  | char c => c ∉ ['\n', '\r']
  | range lo hi => lo ≤ hi ∧ lo ∉ [' ', '\n'] ∧ hi ∉ [' ', '\n', '\r']
  | set _ => False

/-- The label is taken for some label in a listing. -/
def Readable : Label → Prop
  | char _ => True
  | l => l.Legible

/-- What a readable label is taken for. A character that ends a line leaves the rule without a
label. -/
def reread : Label → Label
  | char c => if c ∈ ['\n', '\r'] then epsilon none else char c
  | l => l

instance : DecidablePred Legible
  | epsilon _ | charClass _ => inferInstanceAs (Decidable True)
  | char c => inferInstanceAs (Decidable (c ∉ ['\n', '\r']))
  | range lo hi =>
    inferInstanceAs (Decidable (lo ≤ hi ∧ lo ∉ [' ', '\n'] ∧ hi ∉ [' ', '\n', '\r']))
  | set _ => inferInstanceAs (Decidable False)

variable {l : Label} {lo hi : Char}

theorem legible_iff : l.Legible ↔ l.Readable ∧ l.reread = l := by
  cases l with
  | char c =>
    by_cases hc : c ∈ ['\n', '\r'] <;> simp [Legible, Readable, reread, hc]
  | _ => simp [Readable, reread]

@[simp] theorem toList_shown_char (c : Char) : (char c).shown.toList = [c] := by
  simp [shown]

@[simp] theorem toList_shown_range (lo hi : Char) :
    (range lo hi).shown.toList = [lo, '-', hi] := by
  simp [shown]

theorem Legible.isLine_shown (h : l.Legible) : Text.IsLine l.shown.toList := by
  cases l with
  | epsilon guard => rcases guard with _ | _ | _ | _ | _ <;> exact Text.Unbroken.isLine (by decide)
  | char c =>
    refine Text.Unbroken.isLine fun d hd => ?_
    obtain rfl : d = c := by simpa using hd
    exact h
  | range lo hi =>
    obtain ⟨-, hlo, hhi⟩ := h
    simp only [List.mem_cons, List.not_mem_nil, or_false, not_or] at hlo hhi
    exact ⟨by simp [Ne.symm hlo.2, Ne.symm hhi.2.1], by simp [hhi.2.2]⟩
  | charClass k => cases k <;> exact Text.Unbroken.isLine (by decide)
  | set s => cases h

theorem ofText?_dash (lo : Char) : ofText? [lo, '-'] = none :=
  ite_self none

theorem Legible.ofText?_shown (h : l.Legible) : ofText? l.shown.toList = some l := by
  cases l with
  | epsilon guard => rcases guard with _ | _ | _ | _ | _ <;> rfl
  | char c => simp [ofText?]
  | range lo hi => simp [ofText?, h.1]
  | charClass k => cases k <;> rfl
  | set s => cases h

theorem Legible.shown_ne_nil (h : l.Legible) : l.shown.toList ≠ [] := fun hnil => by
  have htext := h.ofText?_shown
  rw [hnil] at htext
  cases htext

theorem Legible.not_mem_shown (h : l.Legible) (hblank : l ≠ .char ' ') :
    ' ' ∉ l.shown.toList := by
  cases l with
  | epsilon guard => rcases guard with _ | _ | _ | _ | _ <;> decide
  | char c =>
    have hc : c ≠ ' ' := fun h => hblank (h ▸ rfl)
    simpa using hc.symm
  | range lo hi =>
    obtain ⟨-, hlo, hhi⟩ := h
    simp only [List.mem_cons, List.not_mem_nil, or_false, not_or] at hlo hhi
    simp [Ne.symm hlo.1, Ne.symm hhi.1]
  | charClass k => cases k <;> decide
  | set s => cases h

/-- No blank stands where neither the end nor any other character can follow one. -/
theorem ne_blank_of_cases {c : Char} {cs : List Char} (hlast : c = ' ' → cs = [] → False)
    (hother : ∀ d ds, c = ' ' → cs = d :: ds → False) : c ≠ ' ' := by
  intro hc
  cases cs with
  | nil => exact hlast hc rfl
  | cons d ds => exact hother d ds hc rfl

/-- Labels of which the first does not begin with a blank. -/
theorem readLabels_cons {c : Char} {cs : List Char} (hc : c ≠ ' ') (line : Nat)
    (malformed : ListingError) :
    readLabels line malformed (c :: cs) =
      match ofText? (c :: (Automaton.cutAtBlank cs).1) with
      | none => .error (.unknownLabel line (String.ofList (c :: (Automaton.cutAtBlank cs).1)))
      | some label => (label :: ·) <$> readLabels line malformed (Automaton.cutAtBlank cs).2 := by
  rw [readLabels]
  · rfl
  · exact fun h => absurd h hc
  · exact fun _ h => absurd h hc
  · exact fun _ _ h => absurd h hc

/-- A legible label is read back. -/
theorem Legible.readLabels_shown (h : l.Legible) (line : Nat) (malformed : ListingError) :
    readLabels line malformed l.shown.toList = .ok [l] := by
  by_cases hblank : l = .char ' '
  · subst hblank
    simp [readLabels]
  · have htext := h.ofText?_shown
    have hnot := h.not_mem_shown hblank
    obtain ⟨c, cs, hshown⟩ := List.exists_cons_of_ne_nil h.shown_ne_nil
    rw [hshown, List.mem_cons, not_or] at hnot
    rw [hshown] at htext ⊢
    rw [readLabels_cons (Ne.symm hnot.1), Automaton.cutAtBlank_of_not_mem hnot.2, htext]
    simp [readLabels]

/-- A dash with something before it but nothing behind it is no range. -/
theorem exists_error_of_dash (lo : Char) (line : Nat) (malformed : ListingError) :
    ∃ e, readLabels line malformed [lo, '-'] = .error e := by
  by_cases hlo : lo = ' '
  · subst hlo
    exact ⟨malformed, by simp [readLabels]⟩
  · rw [readLabels_cons hlo, Automaton.cutAtBlank_of_not_mem (by decide), ofText?_dash]
    exact ⟨_, rfl⟩

/-- The text of an illegible range is rejected. -/
theorem exists_error_of_range (h : ¬ (range lo hi).Legible) (hlo : lo ≠ '\n')
    (hhi : hi ∉ ['\n', '\r']) (line : Nat) (malformed : ListingError) :
    ∃ e, readLabels line malformed (range lo hi).shown.toList = .error e := by
  rw [toList_shown_range]
  by_cases hblank : lo = ' '
  · subst hblank
    exact ⟨malformed, by simp [readLabels]⟩
  by_cases hblank' : hi = ' '
  · subst hblank'
    rw [readLabels_cons hblank, show ['-', ' '] = ['-'] ++ ' ' :: [] from rfl,
      Automaton.cutAtBlank_append (by decide), ofText?_dash]
    exact ⟨_, rfl⟩
  · have hle : ¬ lo ≤ hi := fun hle => h ⟨hle, by simp [hblank, hlo], by simp_all⟩
    rw [readLabels_cons hblank, Automaton.cutAtBlank_of_not_mem (by simp [Ne.symm hblank'])]
    simp [ofText?, hle]

end Label

/-! ### Rules -/

namespace Automaton

variable {a : Automaton} {c : Char} {id source target line n : Nat}

theorem not_mem_toString (h : isDigit c = false) : c ∉ (toString n).toList := fun hc => by
  simp [Text.isDigit_of_mem_toString hc] at h

theorem isBlank_of_mem_toString (h : c ∈ (toString n).toList) : Text.isBlank c = false :=
  Text.isBlank_of_isDigit (Text.isDigit_of_mem_toString h)

theorem readState_toString (h : id < a.stateCount) (hword : id < 2 ^ 32) :
    a.readState line (toString id).toList = .ok id := by
  rw [readState, Text.trim_eq_self fun _ => isBlank_of_mem_toString,
    Text.unsigned?_toString (hword.trans (by decide))]
  simp only [h, if_true]
  exact congrArg Except.ok (Nat.mod_eq_of_lt hword)

/-- A rule whose labels are written out as `cs`. -/
def ruleText (source target : Nat) (cs : List Char) : List Char :=
  (toString source).toList ++ '-' :: '>' :: ((toString target).toList ++ ' ' :: cs)

theorem toList_edgeLine (source : Nat) (e : Edge) :
    (edgeLine .plain source e).toList = ruleText source e.target e.label.shown.toList := by
  have hlabel : e.label.colored .plain = e.label.shown := by
    simp only [Label.colored, Palette.inDim, Palette.inGreen, Palette.plain]
    split <;> simp
  rw [edgeLine, hlabel, ruleText]
  simp [Palette.stateId, Palette.inBlue, Palette.plain]

/-- Of a rule with states that there are, only the labels matter. -/
theorem readRule_ruleText (hs : source < a.stateCount) (ht : target < a.stateCount)
    (hcount : a.stateCount ≤ 2 ^ 32) (line : Nat) (cs : List Char) :
    a.readRule line (ruleText source target cs) =
      (if cs.isEmpty then .ok [.epsilon none]
        else readLabels line (.malformed line (String.ofList (ruleText source target cs))) cs).map
        fun labels => labels.foldl (fun a label => a.addEdge source label target .last) a := by
  have hdigits (n : Nat) : (toString n).toList.isEmpty = false :=
    List.isEmpty_eq_false_iff.2 (Text.toString_ne_nil n)
  rw [readRule, ruleText, cutAtArrow?_append (not_mem_toString rfl)]
  simp only [cutAtBlank_append (not_mem_toString rfl), hdigits,
    readState_toString hs (hs.trans_le hcount), readState_toString ht (ht.trans_le hcount),
    Bool.or_self, Bool.false_eq_true, if_false, bind, Except.bind]
  split
  · rfl
  · cases readLabels line (.malformed line (String.ofList _)) cs <;> rfl

end Automaton

end PatternAutomata
