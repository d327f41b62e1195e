import Mathlib.Data.List.Forall2
import PatternAutomata.Proofs.Automaton.Loading

/-!
# The rules of a listing

The edges of a state are those of its rules, line by line and label by label, as far as the lines
stand behind the last `states:` line.

## Main definitions

* `Automaton.ruleLinesOf` — the rule lines behind the last `states:` line.
* `Automaton.TakenFor` — a line that is taken for a rule.

## Main statement

* `Automaton.rules_of_ofListing` — the edges of an automaton that is read.
-/
namespace PatternAutomata

namespace Automaton

variable {a b : Automaton} {cs line : List Char} {ls : List (List Char)} {id n : Nat} {r : Rule}

/-- The rule lines behind the last `states:` line. -/
def ruleLinesAmong (ls : List (List Char)) : List (List Char) :=
  ((ls.reverse.takeWhile fun line => (Draft.statesText? line).isNone).reverse.filter
    Draft.isRule).map Draft.content

theorem ruleLinesAmong_concat (ls : List (List Char)) (line : List Char) :
    ruleLinesAmong (ls ++ [line]) = if (Draft.statesText? line).isSome then []
      else ruleLinesAmong ls ++ if Draft.isRule line then [Draft.content line] else [] := by
  unfold ruleLinesAmong
  rw [List.reverse_append, List.reverse_singleton, List.singleton_append, List.takeWhile_cons]
  cases hstates : Draft.statesText? line with
  | some rest => rfl
  | none => cases hrule : Draft.isRule line <;> simp [hrule]

/-- The edges that rules give to a state. -/
def edgesFrom (rules : List Rule) (id : Nat) : List Edge :=
  (rules.filter fun r => stateId r.source = id).flatMap Rule.edges

theorem edgesFrom_concat (rules : List Rule) (r : Rule) (id : Nat) :
    edgesFrom (rules ++ [r]) id =
      if id = stateId r.source then edgesFrom rules id ++ r.edges else edgesFrom rules id := by
  unfold edgesFrom
  by_cases hid : id = stateId r.source
  · simp [hid]
  · simp [hid, Ne.symm hid]

/-- The edges are those of the rules on the lines. -/
def Told (ls : List (List Char)) (a : Automaton) : Prop :=
  ∃ rules, List.Forall₂ Rule.Spells rules (ruleLinesAmong ls) ∧
    (∀ r ∈ rules, r.source < a.stateCount ∧ r.target < a.stateCount) ∧
    ∀ id, a.edgesOf id = edgesFrom rules id

/-- Whatever a line is read as, the edges are those of the rules up to it. A line without a rule
adds none. -/
theorem Draft.Takes.told {d d' : Draft} (h : Draft.Takes line d d')
    (hd : ∀ a, d.automaton = some a → Told ls a) :
    ∀ a, d'.automaton = some a → Told (ls ++ [line]) a := by
  have hlines (hline : Draft.statesText? line = none) (hrule : Draft.isRule line = false) :
      ruleLinesAmong (ls ++ [line]) = ruleLinesAmong ls := by
    simp [ruleLinesAmong_concat, hline, hrule]
  intro b hb
  cases h with
  | pass _ hline hrule | rules hline hrule =>
    rw [Told, hlines hline hrule]
    exact hd b hb
  | states _ hline =>
    obtain rfl := Option.some.inj hb
    rw [Told, ruleLinesAmong_concat, hline, Option.isSome_some, if_pos rfl]
    exact ⟨[], .nil, nofun, edgesOf_ofCount _ {}⟩
  | finals hline hrule =>
    obtain rfl := Option.some.inj hb
    obtain ⟨rules, hrules, hlt, hedges⟩ := hd _ rfl
    rw [Told, hlines hline hrule, foldl_setFinal]
    exact ⟨rules, hrules, hlt, hedges⟩
  | @rule a r hline hrule hspells hs ht =>
    obtain rfl := Option.some.inj hb
    obtain ⟨rules, hrules, hlt, hedges⟩ := hd a rfl
    refine ⟨rules ++ [r], ?_, ?_, fun id => ?_⟩
    · rw [ruleLinesAmong_concat, hline, if_neg (by simp), if_pos hrule]
      exact List.rel_append hrules (.cons hspells .nil)
    · rw [stateCount_addEdges]
      exact List.forall_mem_append.2 ⟨hlt, by simpa using ⟨hs, ht⟩⟩
    · rw [edgesOf_addEdges (stateId_lt hs), edgesFrom_concat, hedges]

theorem told_of_ofListing {text : String} (h : ofListing text = .ok a) :
    Told (Text.lines text.toList) a := by
  obtain ⟨inRules, hread⟩ := exists_of_ofListing h
  exact Draft.foldlM_read_induction (P := fun ls d => ∀ a, d.automaton = some a → Told ls a) nofun
    (fun _ _ _ _ hd htakes => htakes.told hd) hread a rfl

/-! ### Lines that are taken for rules -/

namespace Draft

theorem isPrefixOf?_eq_none (h : isRule line = true) (word : String) (hword : word ∈ words) :
    List.isPrefixOf? word.toList (content line) = none := by
  rw [isRule, Bool.and_eq_true, List.all_eq_true] at h
  have hnot : word.toList.isPrefixOf (content line) = false := by simpa using h.2 word hword
  rw [← List.isSome_isPrefixOf?_eq_isPrefixOf] at hnot
  exact Option.not_isSome_iff_eq_none.1 (by simp [hnot])

theorem not_skipped_of_isRule (h : isRule line = true) :
    ((Text.trim (content line)).isEmpty || (content line).head? = some '#') = false := by
  rw [isRule, Bool.and_eq_true, Bool.not_eq_true'] at h
  exact h.1

/-- A line that is neither passed over nor begins with one of the words is read as a rule if it
stands behind `rules:`, and otherwise not at all. -/
theorem read_of_isRule (d : Draft) (h : isRule line = true) (i : Nat) :
    d.read (line, i) = if d.inRules then
      d.declared (i + 1) >>= fun a => a.readRule (i + 1) (content line) >>= fun a =>
        .ok ⟨some a, true⟩
    else .error (.malformed (i + 1) (String.ofList (content line))) := by
  have htype := isPrefixOf?_eq_none h "type:" (by decide)
  have hstates := isPrefixOf?_eq_none h "states:" (by decide)
  have hfinal := isPrefixOf?_eq_none h "final:" (by decide)
  have hrules : "rules:".toList.isPrefixOf (content line) = false := by
    rw [← List.isSome_isPrefixOf?_eq_isPrefixOf, isPrefixOf?_eq_none h "rules:" (by decide)]
    rfl
  unfold read readLine
  simp only [not_skipped_of_isRule h, htype, hstates, hfinal, hrules, Bool.false_eq_true, if_false]
  rfl

/-- A line that begins with a digit is a rule. -/
theorem isRule_of_isDigit {c : Char} (h : Text.IsLine (c :: cs)) (hc : isDigit c = true) :
    isRule (c :: cs) = true := by
  have hne {d : Char} (hd : isDigit d = false) : d ≠ c := by
    rintro rfl
    simp [hc] at hd
  have hblank := Text.trim_ne_nil (Text.isBlank_of_isDigit hc) cs
  rw [isRule, content_eq h]
  simp [hblank, words, List.isPrefixOf, hne (d := 't') rfl, hne (d := 's') rfl,
    hne (d := 'f') rfl, hne (d := 'r') rfl, (hne (d := '#') rfl).symm]

end Draft

/-- The line is a rule line that spells just this rule, and its edges are added to those of `a`. -/
structure TakenFor (a : Automaton) (line : List Char) (r : Rule) : Prop where
  isRule : Draft.isRule line = true
  spells_iff : ∀ r' : Rule, r'.Spells (Draft.content line) ↔ r' = r
  read_eq : ∀ i, Draft.read ⟨some a, true⟩ (line, i) =
    .ok ⟨some (a.addEdges (stateId r.source) r.edges), true⟩

theorem takenFor (h : Text.Unbroken cs) (hdigit : ∀ c ∈ cs.head?, isDigit c = true)
    (hspells : r.Spells cs) (hs : r.source < a.stateCount) (ht : r.target < a.stateCount) :
    a.TakenFor cs r := by
  obtain ⟨c, rest, rfl⟩ : ∃ c rest, cs = c :: rest := by
    cases cs with
    | nil =>
      generalize hnil : [] = cs at hspells
      cases hspells
      simp at hnil
    | cons c rest => exact ⟨c, rest, rfl⟩
  have hrule := Draft.isRule_of_isDigit h.isLine (hdigit c rfl)
  rw [← Draft.content_eq h.isLine] at hspells
  refine ⟨hrule, fun r' => ⟨fun h' => h'.unique hspells, fun heq => heq ▸ hspells⟩, fun i => ?_⟩
  have hdeclared : Draft.declared ⟨some a, true⟩ (i + 1) = .ok a := rfl
  have hread : a.readRule (i + 1) (Draft.content (c :: rest)) =
      .ok (a.addEdges (stateId r.source) r.edges) :=
    readRule_eq_ok_iff.2 ⟨r, hspells, hs, ht, rfl⟩
  rw [Draft.read_of_isRule _ hrule, if_pos rfl, hdeclared]
  simp only [bind, Except.bind, hread]

/-- The line of a rule whose numbers are written out. -/
def ruleLine (source target : Nat) (tail : List Char) : List Char :=
  (toString source).toList ++ '-' :: '>' :: ((toString target).toList ++ tail)

theorem takenFor_ruleLine {source target : Nat} {tail : List Char} {labels : List Label}
    (hcount : a.stateCount ≤ 2 ^ 64) (hs : source < a.stateCount) (ht : target < a.stateCount)
    (htail : Rule.Tail tail labels) (hbreak : Text.Unbroken tail) :
    a.TakenFor (ruleLine source target tail) ⟨source, target, labels⟩ := by
  have harrow : Text.Unbroken (['-', '>'] ++ ((toString target).toList ++ tail)) :=
    .append (by decide) ((unbroken_toString target).append hbreak)
  refine takenFor ((unbroken_toString source).append harrow) (fun c hc => ?_) ?_ hs ht
  · obtain ⟨d, ds, hsource⟩ := List.exists_cons_of_ne_nil (Text.toString_ne_nil source)
    rw [ruleLine, hsource] at hc
    obtain rfl := Option.some.inj hc
    exact Text.isDigit_of_mem_toString (n := source) (hsource ▸ List.mem_cons_self)
  · exact .mk (.of_toString (hs.trans_le hcount)) (.of_toString (ht.trans_le hcount))
      (not_mem_toString rfl) htail

theorem stateCount_lt_of_ofListing {text : String} (h : ofListing text = .ok a) :
    a.stateCount < 2 ^ 64 := by
  obtain ⟨rest, -, hcount⟩ := Option.bind_eq_some_iff.1 (declaredCount?_eq h)
  exact Text.lt_of_unsigned?_eq_some hcount

/-- The rule lines of a text. -/
def ruleLinesOf (text : String) : List (List Char) :=
  ruleLinesAmong (Text.lines text.toList)

/-- Rule lines are read in full and in order. Each rule line behind the last `states:` line spells a
rule, and the edges of a state are those of its rules, line by line. Ids are words of 32 bits; as
long as these are enough for the states, an id is the number on the line. Between two states there
are, labels put together with single blanks make a rule with just these labels in this order, blanks
among them or not, and without labels a rule has an edge that consumes nothing. -/
theorem rules_of_ofListing {text : String} (h : ofListing text = .ok a) :
    (∃ rules, List.Forall₂ Rule.Spells rules (ruleLinesOf text) ∧
      (∀ r ∈ rules, r.source < a.stateCount ∧ r.target < a.stateCount) ∧
      ∀ id < a.stateCount, a.edges? id = some (edgesFrom rules id)) ∧
    (a.stateCount ≤ 2 ^ 32 → ∀ id < a.stateCount, stateId id = id) ∧
    ∀ source < a.stateCount, ∀ target < a.stateCount,
      (∀ words labels, words ≠ [] → List.Forall₂ Label.Cell words labels →
        (∀ word ∈ words, Text.Unbroken word) →
          a.TakenFor (ruleLine source target (' ' :: [' '].intercalate words))
            ⟨source, target, labels⟩) ∧
      ∀ tail ∈ [[], [' ']],
        a.TakenFor (ruleLine source target tail) ⟨source, target, [.epsilon none]⟩ := by
  have hcount : a.stateCount ≤ 2 ^ 64 := (stateCount_lt_of_ofListing h).le
  obtain ⟨rules, hspells, hlt, hedges⟩ := told_of_ofListing h
  refine ⟨⟨rules, hspells, hlt, fun id hid => ?_⟩,
    fun hwords id hid => Nat.mod_eq_of_lt (hid.trans_le hwords),
    fun source hs target ht => ⟨?_, ?_⟩⟩
  · have hid : id < a.states.size := hid
    rw [← hedges, edgesOf, edges?, Array.getElem?_eq_getElem hid]
    rfl
  · intro words labels hne hcells hbreak
    have hrow := Label.row_intercalate hcells
    have hsome : [' '].intercalate words ≠ [] := by
      intro hnil
      rw [hnil] at hrow
      obtain rfl := hrow.unique .nil
      exact hne (List.forall₂_nil_right_iff.1 hcells)
    have hblank : Text.Unbroken [' '] := by decide
    exact takenFor_ruleLine hcount hs ht (.row hsome hrow)
      (hblank.append (Text.unbroken_intercalate hbreak))
  · intro tail htail
    simp only [List.mem_cons, List.not_mem_nil, or_false] at htail
    rcases htail with rfl | rfl
    · exact takenFor_ruleLine hcount hs ht .nil (by decide)
    · exact takenFor_ruleLine hcount hs ht .blank (by decide)

/-- Rules of two states in turn, with blanks for labels at the beginning, in the middle and at the
end, and rules that do not count because the states are declared anew. -/
def blanked : String :=
  "states: 9\nrules:\n8->8 z\nstates: +3\ntype: nfa\nrules:\n2->1   a     \\d  \n# 2->0 b\n2->0\n" ++
    "final: 1\n\nrules:\n 0 ->2 \\e \n2->1 b-c"

/-- The automaton that the text is read as. -/
def unblanked : Automaton where
  states := #[[⟨.epsilon none, 2⟩], [], [⟨.char ' ', 1⟩, ⟨.char 'a', 1⟩, ⟨.char ' ', 1⟩,
    ⟨.char ' ', 1⟩, ⟨.charClass .digit, 1⟩, ⟨.char ' ', 1⟩, ⟨.epsilon none, 0⟩, ⟨.range 'b' 'c', 1⟩]]
  finals := [1]

theorem rules_of_ofListing_blanked :
    ofListing blanked = .ok unblanked ∧
      (∃ rules, List.Forall₂ Rule.Spells rules (ruleLinesOf blanked) ∧
        unblanked.edges? 2 = some (edgesFrom rules 2)) ∧
      unblanked.TakenFor "2->1   a     \\d  ".toList
        ⟨2, 1, [.char ' ', .char 'a', .char ' ', .char ' ', .charClass .digit, .char ' ']⟩ := by
  have hread : ofListing blanked = .ok unblanked := by decide +kernel
  obtain ⟨⟨rules, hspells, -, hedges⟩, -, hlines⟩ := rules_of_ofListing hread
  have hcells : List.Forall₂ Label.Cell [[' '], ['a'], [' '], [' '], ['\\', 'd'], [' ']]
      [.char ' ', .char 'a', .char ' ', .char ' ', .charClass .digit, .char ' '] := by
    simp only [List.forall₂_cons, List.forall₂_nil_right_iff, and_true]
    refine ⟨⟨rfl, ?_⟩, ⟨rfl, ?_⟩, ⟨rfl, ?_⟩, ⟨rfl, ?_⟩, ⟨rfl, ?_⟩, ⟨rfl, ?_⟩⟩ <;> decide
  have hline := (hlines 2 (by decide) 1 (by decide)).1 _ _ (by simp) hcells (by decide)
  exact ⟨hread, ⟨rules, hspells, hedges 2 (by decide)⟩, hline⟩

end Automaton

end PatternAutomata
