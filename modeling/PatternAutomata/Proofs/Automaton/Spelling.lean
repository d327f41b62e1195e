import PatternAutomata.Proofs.Automaton.Listing
import PatternAutomata.Proofs.Steps

/-!
# What rule lines spell

A rule line has two numbers with an arrow between them and labels parted by single blanks. A blank
may itself be a label, and one more blank may stand behind the last label. In spite of that no line
can be taken for two rules, and a rule is read just where one is spelled.

## Main definitions

* `Label.Row` — labels written side by side.
* `Rule.Spells` — the lines that spell a rule.

## Main statements

* `Label.readLabels_eq_ok_iff` — labels are read just where they make a row.
* `Rule.Spells.unique` — no line spells two rules.
* `Automaton.readRule_eq_ok_iff` — a rule is read just where a line spells one for states there are.
-/
namespace PatternAutomata

open Automaton (cutAtBlank cutAtArrow? readLabels)

/-! ### Labels side by side -/

namespace Label

/-- What may stand for a label on a rule line: a blank, or a text of the label without blanks. -/
structure Cell (word : List Char) (l : Label) : Prop where
  ofText?_eq : ofText? word = some l
  blank_or : word = [' '] ∨ ' ' ∉ word

/-- Labels with a blank between any two of them, and perhaps one more behind the last. -/
inductive Row : List Char → List Label → Prop
  | nil : Row [] []
  | last {word : List Char} {l : Label} : Cell word l → Row word [l]
  | cons {word rest : List Char} {l : Label} {ls : List Label} : Cell word l → Row rest ls →
      Row (word ++ ' ' :: rest) (l :: ls)

variable {word rest cs : List Char} {l : Label} {ls ls' : List Label} {line : Nat}
  {malformed : ListingError}

/-- A cell that is no blank. -/
theorem Cell.exists_cons (h : Cell word l) (hblank : ' ' ∉ word) :
    ∃ c cs, word = c :: cs ∧ c ≠ ' ' ∧ ' ' ∉ cs := by
  cases word with
  | nil => cases h.ofText?_eq
  | cons c cs =>
    rw [List.mem_cons, not_or] at hblank
    exact ⟨c, cs, rfl, Ne.symm hblank.1, hblank.2⟩

theorem Cell.readLabels_eq (h : Cell word l) (line : Nat) (malformed : ListingError) :
    readLabels line malformed word = .ok [l] := by
  have htext := h.ofText?_eq
  obtain rfl | hblank := h.blank_or
  · obtain rfl := Option.some.inj htext
    simp [readLabels]
  · obtain ⟨c, cs, rfl, hc, hcs⟩ := h.exists_cons hblank
    rw [readLabels_cons hc, Automaton.cutAtBlank_of_not_mem hcs, htext]
    simp [readLabels]

theorem Cell.readLabels_append (h : Cell word l) (rest : List Char) (line : Nat)
    (malformed : ListingError) :
    readLabels line malformed (word ++ ' ' :: rest) =
      (l :: ·) <$> readLabels line malformed rest := by
  have htext := h.ofText?_eq
  obtain rfl | hblank := h.blank_or
  · obtain rfl := Option.some.inj htext
    rw [List.singleton_append, readLabels]
    rfl
  · obtain ⟨c, cs, rfl, hc, hcs⟩ := h.exists_cons hblank
    rw [List.cons_append, readLabels_cons hc, Automaton.cutAtBlank_append hcs, htext]

/-- Labels are read just where they make a row. -/
theorem readLabels_eq_ok_iff : readLabels line malformed cs = .ok ls ↔ Row cs ls := by
  constructor
  · intro h
    fun_induction readLabels line malformed cs generalizing ls with
    | case1 =>
      obtain rfl := Except.ok.inj h
      exact .nil
    | case2 =>
      obtain rfl := Except.ok.inj h
      exact .last ⟨rfl, .inl rfl⟩
    | case3 rest ih =>
      obtain ⟨ls, hrest, h⟩ := exists_of_bind_eq_ok h
      obtain rfl := Except.ok.inj h
      have hcell : Cell [' '] (.char ' ') := ⟨rfl, .inl rfl⟩
      exact .cons hcell (ih hrest)
    | case4 => cases h
    | case5 => cases h
    | case6 c rest hlast _ hother l htext ih =>
      obtain ⟨ls, hrest, h⟩ := exists_of_bind_eq_ok h
      obtain rfl := Except.ok.inj h
      have hc : c ≠ ' ' := ne_blank_of_cases hlast hother
      have hcell : Cell (c :: (cutAtBlank rest).1) l := by
        refine ⟨htext, .inr ?_⟩
        rw [List.mem_cons, not_or]
        exact ⟨hc.symm, Automaton.not_mem_cutAtBlank rest⟩
      obtain ⟨hword, hnil⟩ | hsplit := Automaton.cutAtBlank_cases rest
      · rw [hnil, readLabels] at hrest
        obtain rfl := Except.ok.inj hrest
        rw [← hword] at hcell
        exact .last hcell
      · rw [hsplit]
        exact .cons hcell (ih hrest)
  · intro h
    induction h with
    | nil => rw [readLabels]
    | last hcell => exact hcell.readLabels_eq line malformed
    | cons hcell _ ih =>
      rw [hcell.readLabels_append, ih]
      rfl

theorem Row.unique (h : Row cs ls) (h' : Row cs ls') : ls = ls' := by
  have hread : readLabels 0 .noStates cs = .ok ls := readLabels_eq_ok_iff.2 h
  exact Except.ok.inj (hread.symm.trans (readLabels_eq_ok_iff.2 h'))

/-- Labels that are put together with single blanks make a row. -/
theorem row_intercalate {words : List (List Char)} (h : List.Forall₂ Cell words ls) :
    Row ([' '].intercalate words) ls := by
  induction h with
  | nil => exact .nil
  | @cons word l words ls hcell hrest ih =>
    cases hrest with
    | nil =>
      rw [List.intercalate_singleton]
      exact .last hcell
    | cons hcell' hrest' =>
      rw [List.intercalate_cons_cons, List.append_assoc, List.singleton_append]
      exact .cons hcell ih

end Label

/-! ### Rules -/

/-- The token is a number of 64 bits, perhaps with blanks around it. -/
def IsNumber (token : List Char) (n : Nat) : Prop :=
  Text.unsigned? 0x1_0000_0000_0000_0000 (Text.trim token) = some n

structure Rule where
  source : Nat
  target : Nat
  labels : List Label
  deriving DecidableEq, Repr

namespace Rule

/-- The edges of a rule, one for each label. -/
def edges (r : Rule) : List Edge :=
  r.labels.map (⟨·, stateId r.target⟩)

/-- What may stand behind the numbers of a rule. -/
inductive Tail : List Char → List Label → Prop
  | nil : Tail [] [.epsilon none]
  | blank : Tail [' '] [.epsilon none]
  | row {cs : List Char} {ls : List Label} : cs ≠ [] → Label.Row cs ls → Tail (' ' :: cs) ls

/-- The characters of a line spell a rule. -/
inductive Spells : Rule → List Char → Prop
  | mk {before token tail : List Char} {source target : Nat} {labels : List Label} :
      IsNumber before source → IsNumber token target → ' ' ∉ token → Tail tail labels →
      Spells ⟨source, target, labels⟩ (before ++ '-' :: '>' :: (token ++ tail))

end Rule

namespace IsNumber

variable {token : List Char} {n n' : Nat}

theorem dash_not_mem (h : IsNumber token n) : '-' ∉ token := by
  intro hmem
  obtain hmem | hblank := Text.mem_trim_or hmem
  · exact absurd (Text.mem_of_unsigned? h hmem) (by decide)
  · cases hblank

theorem unique (h : IsNumber token n) (h' : IsNumber token n') : n = n' :=
  Option.some.inj (h.symm.trans h')

theorem ne_nil (h : IsNumber token n) : token ≠ [] := by
  rintro rfl
  cases h

theorem of_toString (h : n < 0x1_0000_0000_0000_0000) : IsNumber (toString n).toList n := by
  rw [IsNumber, Text.trim_eq_self fun _ => Automaton.isBlank_of_mem_toString,
    Text.unsigned?_toString h]

end IsNumber

namespace Rule

variable {r r' : Rule} {cs before rest token : List Char} {ls ls' : List Label}

/-- The labels as they are cut off by the loader of a rule. -/
def Named (cs : List Char) (ls : List Label) : Prop :=
  if cs = [] then ls = [.epsilon none] else Label.Row cs ls

theorem Named.unique (h : Named cs ls) (h' : Named cs ls') : ls = ls' := by
  unfold Named at h h'
  split at h
  · rw [if_pos ‹_›] at h'
    exact h.trans h'.symm
  · rw [if_neg ‹_›] at h'
    exact h.unique h'

/-- A line is cut at the first arrow and at the first blank behind it. -/
theorem spells_iff : r.Spells cs ↔ ∃ before rest, cutAtArrow? cs = some (before, rest) ∧
    IsNumber before r.source ∧ IsNumber (cutAtBlank rest).1 r.target ∧
    Named (cutAtBlank rest).2 r.labels := by
  constructor
  · rintro ⟨hsource, htarget, hblank, htail⟩
    refine ⟨_, _, Automaton.cutAtArrow?_append hsource.dash_not_mem, hsource, ?_⟩
    cases htail with
    | nil =>
      rw [List.append_nil, Automaton.cutAtBlank_of_not_mem hblank]
      exact ⟨htarget, if_pos rfl |>.mpr rfl⟩
    | blank =>
      rw [Automaton.cutAtBlank_append hblank]
      exact ⟨htarget, if_pos rfl |>.mpr rfl⟩
    | row hne hrow =>
      rw [Automaton.cutAtBlank_append hblank]
      exact ⟨htarget, (if_neg hne).mpr hrow⟩
  · rintro ⟨before, rest, hcut, hsource, htarget, hnamed⟩
    rw [Automaton.eq_of_cutAtArrow? hcut]
    have hblank := Automaton.not_mem_cutAtBlank rest
    unfold Named at hnamed
    obtain ⟨hrest, hnil⟩ | hrest := Automaton.cutAtBlank_cases rest
    · rw [if_pos hnil] at hnamed
      have hspells := Spells.mk hsource htarget hblank .nil
      rwa [List.append_nil, ← hrest, ← hnamed] at hspells
    · rw [hrest]
      refine .mk hsource htarget hblank ?_
      split at hnamed
      · rename_i hnil
        rw [hnil, hnamed]
        exact .blank
      · exact .row ‹_› hnamed

/-- No line spells two rules. -/
theorem Spells.unique (h : r.Spells cs) (h' : r'.Spells cs) : r = r' := by
  obtain ⟨before, rest, hcut, hsource, htarget, hlabels⟩ := spells_iff.1 h
  obtain ⟨before', rest', hcut', hsource', htarget', hlabels'⟩ := spells_iff.1 h'
  obtain ⟨rfl, rfl⟩ := Prod.mk.inj (Option.some.inj (hcut.symm.trans hcut'))
  obtain ⟨source, target, labels⟩ := r
  obtain ⟨source', target', labels'⟩ := r'
  rw [Rule.mk.injEq]
  exact ⟨hsource.unique hsource', htarget.unique htarget', hlabels.unique hlabels'⟩

end Rule

namespace Automaton

variable {a b : Automaton} {cs line : List Char} {ls : List (List Char)} {id n : Nat} {r : Rule}

theorem readState_eq_ok_iff :
    a.readState n cs = .ok id ↔ ∃ k, IsNumber cs k ∧ k < a.stateCount ∧ id = stateId k := by
  unfold readState IsNumber
  cases Text.unsigned? 0x1_0000_0000_0000_0000 (Text.trim cs) with
  | none => simp
  | some k =>
    by_cases hk : k < a.stateCount
    · simp [hk, eq_comm]
    · simp [hk]

/-- Labels are read from what stands behind the numbers. -/
theorem named_iff {labels : List Label} {malformed : ListingError} :
    (if cs.isEmpty then .ok [.epsilon none] else readLabels n malformed cs) = .ok labels ↔
      Rule.Named cs labels := by
  cases cs with
  | nil => simp [Rule.Named, eq_comm]
  | cons c cs => simpa [Rule.Named] using Label.readLabels_eq_ok_iff

theorem foldl_addEdge_eq (a : Automaton) (source target : Nat) (labels : List Label) :
    labels.foldl (fun a label => a.addEdge source label target .last) a =
      a.addEdges source (labels.map (⟨·, target⟩)) := by
  rw [addEdges, List.foldl_map]

section

variable {before rest : List Char} (a : Automaton) (n : Nat)
  (hcut : cutAtArrow? cs = some (before, rest))

include hcut

theorem readRule_of_isEmpty (h : (before.isEmpty || (cutAtBlank rest).1.isEmpty) = true) :
    a.readRule n cs = .error (.malformed n (String.ofList cs)) := by
  simp only [readRule, hcut, h]
  rfl

/-- How a rule is read, once it is cut. -/
theorem readRule_of_cut (h : (before.isEmpty || (cutAtBlank rest).1.isEmpty) = false) :
    a.readRule n cs =
      a.readState n before >>= fun source => a.readState n (cutAtBlank rest).1 >>= fun target =>
        (if (cutAtBlank rest).2.isEmpty then .ok [.epsilon none]
          else readLabels n (.malformed n (String.ofList cs)) (cutAtBlank rest).2) >>= fun labels =>
            .ok (a.addEdges source (labels.map (⟨·, target⟩))) := by
  unfold readRule
  simp only [hcut, h, Bool.false_eq_true, if_false, foldl_addEdge_eq]
  split <;> rfl

end

/-- A rule is read just where the line spells one and there are states of its numbers. -/
theorem readRule_eq_ok_iff : a.readRule n cs = .ok b ↔ ∃ r : Rule, r.Spells cs ∧
    r.source < a.stateCount ∧ r.target < a.stateCount ∧
    b = a.addEdges (stateId r.source) r.edges := by
  constructor
  · intro h
    cases hcut : cutAtArrow? cs with
    | none =>
      rw [readRule, hcut] at h
      cases h
    | some cut =>
      obtain ⟨before, rest⟩ := cut
      cases hempty : before.isEmpty || (cutAtBlank rest).1.isEmpty with
      | true => cases (readRule_of_isEmpty a n hcut hempty).symm.trans h
      | false =>
        rw [readRule_of_cut a n hcut hempty] at h
        obtain ⟨source, hs, h⟩ := exists_of_bind_eq_ok h
        obtain ⟨target, ht, h⟩ := exists_of_bind_eq_ok h
        obtain ⟨labels, hlabels, h⟩ := exists_of_bind_eq_ok h
        obtain rfl := Except.ok.inj h
        obtain ⟨i, hi, hlt, rfl⟩ := readState_eq_ok_iff.1 hs
        obtain ⟨j, hj, hlt', rfl⟩ := readState_eq_ok_iff.1 ht
        refine ⟨⟨i, j, labels⟩, ?_, hlt, hlt', rfl⟩
        exact Rule.spells_iff.2 ⟨before, rest, hcut, hi, hj, named_iff.1 hlabels⟩
  · rintro ⟨⟨source, target, labels⟩, hspells, hs, ht, rfl⟩
    obtain ⟨before, rest, hcut, hsource, htarget, hnamed⟩ := Rule.spells_iff.1 hspells
    have hsome : (before.isEmpty || (cutAtBlank rest).1.isEmpty) = false := by
      simp [hsource.ne_nil, htarget.ne_nil]
    rw [readRule_of_cut a n hcut hsome, readState_eq_ok_iff.2 ⟨source, hsource, hs, rfl⟩,
      readState_eq_ok_iff.2 ⟨target, htarget, ht, rfl⟩, named_iff.2 hnamed]
    rfl

end Automaton

end PatternAutomata
