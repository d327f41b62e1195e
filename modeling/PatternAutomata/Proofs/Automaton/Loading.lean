import Mathlib.Data.List.Induction
import PatternAutomata.Proofs.Automaton.Spelling

/-!
# What a listing is read as

A line that is read either changes nothing, or starts an automaton anew, or makes states final, or
adds the edges of a rule. So whatever the order of the lines is, the automaton that is read has
nothing that its own listing could not tell.

## Main definitions

* `Automaton.Draft.Takes` — what a line is read as.
* `Automaton.Loaded` — what all automata that are read have in common.
* `Automaton.declaredCount?` — the number on the last `states:` line.

## Main statements

* `Automaton.Draft.takes_of_read` — a line that is read is read as its kind says.
* `Automaton.declaredCount?_eq` — the last `states:` line tells how many states there are.
* `Automaton.listing_stable` — a text without carriage returns is read as the automaton that the
  listing of this automaton is read as.
-/
namespace PatternAutomata

/-! ### Characters of lines and labels -/

namespace Text

variable {cs line : List Char} {c : Char}

theorem mem_of_mem_lines (hline : line ∈ lines cs) (hc : c ∈ line) : c ∈ cs ∧ c ≠ '\n' := by
  fun_induction lines cs generalizing line with
  | case1 => cases hline
  | case2 rest ih =>
    rcases List.mem_cons.1 hline with rfl | hline
    · cases hc
    · exact (ih hline hc).imp_left (List.mem_cons_of_mem _)
  | case3 rest ih =>
    rcases List.mem_cons.1 hline with rfl | hline
    · cases hc
    · exact (ih hline hc).imp_left fun h => List.mem_cons_of_mem _ (List.mem_cons_of_mem _ h)
  | case4 d rest hd _ hlines ih =>
    obtain rfl := List.mem_singleton.1 hline
    obtain rfl := List.mem_singleton.1 hc
    exact ⟨List.mem_cons_self, hd⟩
  | case5 d rest hd _ first more hlines ih =>
    rw [hlines] at ih
    rcases List.mem_cons.1 hline with rfl | hline
    · rcases List.mem_cons.1 hc with rfl | hc
      · exact ⟨List.mem_cons_self, hd⟩
      · exact (ih List.mem_cons_self hc).imp_left (List.mem_cons_of_mem _)
    · exact (ih (List.mem_cons_of_mem _ hline) hc).imp_left (List.mem_cons_of_mem _)

theorem unbroken_of_mem_lines (hcr : '\r' ∉ cs) (hline : line ∈ lines cs) : Unbroken line :=
  fun c hc hbreak => by
    obtain ⟨hmem, hfeed⟩ := mem_of_mem_lines hline hc
    rcases List.mem_cons.1 hbreak with rfl | hbreak
    · exact hfeed rfl
    · obtain rfl := List.mem_singleton.1 hbreak
      exact hcr hmem

theorem Unbroken.of_subset (h : Unbroken cs) (hsub : line ⊆ cs) : Unbroken line :=
  fun c hc => h c (hsub hc)

end Text

namespace Label

variable {cs : List Char} {l : Label}

theorem legible_of_ofEscape? {c : Char} (h : ofEscape? c = some l) : l.Legible := by
  unfold ofEscape? at h
  split at h
  case h_6 =>
    obtain ⟨k, -, rfl⟩ := Option.map_eq_some_iff.1 h
    trivial
  all_goals
    obtain rfl := Option.some.inj h
    trivial

/-- What is read from characters that are neither blanks nor line ends is read again. -/
theorem legible_of_ofText? (hbreak : Text.Unbroken cs) (hblank : ' ' ∉ cs)
    (h : ofText? cs = some l) : l.Legible := by
  unfold ofText? at h
  split at h
  · obtain rfl := Option.some.inj h
    exact hbreak _ (by simp)
  · exact legible_of_ofEscape? (Option.ite_none_right_eq_some.1 h).2
  · rename_i lo dash hi
    obtain ⟨⟨-, hle⟩, heq⟩ := Option.ite_none_right_eq_some.1 h
    obtain rfl := Option.some.inj heq
    have hlo := hbreak lo (by simp)
    have hhi := hbreak hi (by simp)
    simp only [List.mem_cons, List.not_mem_nil, or_false, not_or] at hblank hlo hhi
    exact ⟨hle, by simp [hlo.1, Ne.symm hblank.1], by simp [hhi, Ne.symm hblank.2.2]⟩
  · cases h

theorem Cell.legible (h : Cell cs l) (hbreak : Text.Unbroken cs) : l.Legible := by
  obtain rfl | hblank := h.blank_or
  · obtain rfl : l = char ' ' := (Option.some.inj h.ofText?_eq).symm
    decide
  · exact legible_of_ofText? hbreak hblank h.ofText?_eq

theorem Row.legible {ls : List Label} (h : Row cs ls) (hbreak : Text.Unbroken cs) :
    ∀ l ∈ ls, l.Legible := by
  induction h with
  | nil => exact nofun
  | last hcell => exact fun l hl => List.mem_singleton.1 hl ▸ hcell.legible hbreak
  | cons hcell _ ih =>
    exact List.forall_mem_cons.2 ⟨hcell.legible (hbreak.of_subset (List.subset_append_left _ _)),
      ih (hbreak.of_subset fun c hc => by simp [hc])⟩

end Label

theorem Rule.Spells.legible {r : Rule} {cs : List Char} (h : r.Spells cs)
    (hbreak : Text.Unbroken cs) : ∀ l ∈ r.labels, l.Legible := by
  obtain @⟨_, _, tail, _, _, labels, -, -, -, htail⟩ := h
  cases htail with
  | nil | blank => simp [Label.Legible]
  | row _ hrow => exact hrow.legible (hbreak.of_subset fun c hc => by simp [hc])

namespace Automaton

variable {a b : Automaton} {cs line : List Char} {id n : Nat}

/-! ### What a line does -/

theorem stateId_lt (h : n < a.stateCount) : stateId n < a.stateCount :=
  (Nat.mod_le _ _).trans_lt h

theorem lt_of_readState (h : a.readState n cs = .ok id) : id < a.stateCount := by
  obtain ⟨k, -, hk, rfl⟩ := readState_eq_ok_iff.1 h
  exact stateId_lt hk

/-- The final states on a line that is read are states. -/
theorem exists_of_readFinals (h : a.readFinals n cs = .ok b) :
    ∃ ids : List Nat, (∀ id ∈ ids, id < a.stateCount) ∧ b = ids.foldl setFinal a := by
  unfold readFinals at h
  generalize Text.words cs = tokens at h
  induction tokens generalizing a with
  | nil =>
    obtain rfl := Except.ok.inj h
    exact ⟨[], by simp, rfl⟩
  | cons token tokens ih =>
    obtain ⟨a', hstep, h⟩ := exists_of_foldlM_cons_eq_ok h
    obtain ⟨id, hid, hstep⟩ := exists_of_bind_eq_ok hstep
    obtain rfl := Except.ok.inj hstep
    obtain ⟨ids, hids, rfl⟩ := ih h
    exact ⟨id :: ids, List.forall_mem_cons.2 ⟨lt_of_readState hid, hids⟩, rfl⟩

namespace Draft

/-- What follows `states:` on a line that begins with it. -/
def statesText? (line : List Char) : Option (List Char) :=
  List.isPrefixOf? "states:".toList (content line)

/-- The number that the text behind `states:` declares. -/
def countOf? (rest : List Char) : Option Nat :=
  Text.unsigned? 0x1_0000_0000_0000_0000 (Text.trim rest)

variable {d d' : Draft}

theorem statesText?_eq_none (h : (content line).head? ≠ some 's') :
    statesText? line = none := by
  unfold statesText?
  cases hcontent : content line with
  | nil => rfl
  | cons c cs =>
    have hc : c ≠ 's' := by simpa [hcontent] using h
    simp [List.isPrefixOf?, hc.symm]

theorem exists_of_readCount {rest : List Char} (h : readCount n rest = .ok a) :
    ∃ count, countOf? rest = some count ∧ 0 < count ∧ a = ofCount count {} := by
  unfold readCount at h
  split at h
  · rename_i count hcount
    refine ⟨count + 1, hcount, Nat.succ_pos _, ?_⟩
    split at h
    · rename_i b hb
      obtain rfl := Except.ok.inj h
      exact (Option.some.inj (Option.ite_none_right_eq_some.1 hb).2).symm
    · cases h
  · cases h

theorem exists_of_declared (h : d.declared n = .ok a) : d = ⟨some a, d.inRules⟩ := by
  obtain ⟨_ | b, inRules⟩ := d
  · cases h
  · obtain rfl := Except.ok.inj h
    rfl

/-- The words that lines other than rules begin with. -/
def words : List String :=
  ["type:", "states:", "final:", "rules:"]

/-- The line is neither blank nor a comment and begins with none of the words. -/
def isRule (line : List Char) : Bool :=
  !((Text.trim (content line)).isEmpty || (content line).head? = some '#') &&
    words.all fun word => !word.toList.isPrefixOf (content line)

theorem isPrefixOf_of_eq_some {cs rest : List Char} {word : String}
    (h : List.isPrefixOf? word.toList cs = some rest) : word.toList.isPrefixOf cs = true := by
  rw [← List.isSome_isPrefixOf?_eq_isPrefixOf, h]
  rfl

theorem isRule_eq_false (word : String) (hword : word ∈ words)
    (h : word.toList.isPrefixOf (content line) = true) : isRule line = false := by
  have hall : (words.all fun word => !word.toList.isPrefixOf (content line)) = false :=
    List.all_eq_false.2 ⟨word, hword, by simp [h]⟩
  rw [isRule, hall, Bool.and_false]

/-- What a line is read as, by its kind. -/
inductive Takes (line : List Char) : Draft → Draft → Prop where
  | pass (d : Draft) : statesText? line = none → isRule line = false → Takes line d d
  | states (d : Draft) {rest : List Char} {count : Nat} : statesText? line = some rest →
      countOf? rest = some count → 0 < count → Takes line d ⟨some (ofCount count {}), false⟩
  | finals {a : Automaton} {inRules : Bool} {ids : List Nat} : statesText? line = none →
      isRule line = false → (∀ id ∈ ids, id < a.stateCount) →
      Takes line ⟨some a, inRules⟩ ⟨some (ids.foldl setFinal a), false⟩
  | rules {a : Automaton} {inRules : Bool} : statesText? line = none → isRule line = false →
      Takes line ⟨some a, inRules⟩ ⟨some a, true⟩
  | rule {a : Automaton} {r : Rule} : statesText? line = none → isRule line = true →
      r.Spells (content line) → r.source < a.stateCount → r.target < a.stateCount →
      Takes line ⟨some a, true⟩ ⟨some (a.addEdges (stateId r.source) r.edges), true⟩

theorem takes_of_readLine (h : d.readLine n (content line) = .ok d')
    (hshown : ((Text.trim (content line)).isEmpty || (content line).head? = some '#') = false) :
    Takes line d d' := by
  unfold readLine at h
  split at h
  · rename_i rest htype
    have hhead : (content line).head? = some 't' := by
      rw [← List.append_eq_of_isPrefixOf?_eq_some htype]
      rfl
    dsimp only at h
    split at h
    · obtain rfl := Except.ok.inj h
      refine .pass d (statesText?_eq_none (by simp [hhead])) ?_
      exact isRule_eq_false "type:" (by decide) (isPrefixOf_of_eq_some htype)
    · cases h
  rename_i htype
  split at h
  · rename_i rest hstates
    obtain ⟨a, ha, h⟩ := exists_of_bind_eq_ok h
    obtain rfl := Except.ok.inj h
    obtain ⟨count, hcount, hpos, rfl⟩ := exists_of_readCount ha
    exact .states d hstates hcount hpos
  rename_i hstates
  have hline : statesText? line = none := Option.eq_none_iff_forall_ne_some.2 hstates
  split at h
  · rename_i rest hfinal
    obtain ⟨a, ha, h⟩ := exists_of_bind_eq_ok h
    obtain ⟨b, hb, h⟩ := exists_of_bind_eq_ok h
    obtain rfl := Except.ok.inj h
    obtain ⟨ids, hids, rfl⟩ := exists_of_readFinals hb
    rw [exists_of_declared ha]
    refine .finals hline ?_ hids
    exact isRule_eq_false "final:" (by decide) (isPrefixOf_of_eq_some hfinal)
  rename_i hfinal
  split at h
  · rename_i hrules
    obtain ⟨a, ha, h⟩ := exists_of_bind_eq_ok h
    obtain rfl := Except.ok.inj h
    rw [exists_of_declared ha]
    exact .rules hline (isRule_eq_false "rules:" (by decide) hrules)
  rename_i hrules
  split at h
  · rename_i hin
    obtain ⟨a, ha, h⟩ := exists_of_bind_eq_ok h
    obtain ⟨b, hb, h⟩ := exists_of_bind_eq_ok h
    obtain rfl := Except.ok.inj h
    obtain ⟨r, hspells, hs, ht, rfl⟩ := readRule_eq_ok_iff.1 hb
    rw [exists_of_declared ha, hin]
    refine .rule hline ?_ hspells hs ht
    have hnone {word : String}
        (h : ∀ rest, List.isPrefixOf? word.toList (content line) = some rest → False) :
        word.toList.isPrefixOf (content line) = false := by
      rw [← List.isSome_isPrefixOf?_eq_isPrefixOf, Option.eq_none_iff_forall_ne_some.2 h]
      rfl
    rw [isRule, hshown]
    simp only [words, List.all_cons, List.all_nil, hnone htype, hnone hstates, hnone hfinal,
      Bool.eq_false_iff.2 hrules, Bool.not_false, Bool.and_true]
  · cases h

/-- A line that is read is read as its kind says. -/
theorem takes_of_read {index : Nat} (h : d.read (line, index) = .ok d') : Takes line d d' := by
  unfold read at h
  dsimp only at h
  split at h
  · rename_i hskip
    obtain rfl := Except.ok.inj h
    refine .pass d (statesText?_eq_none fun hhead => ?_) (by rw [isRule, hskip]; rfl)
    obtain ⟨rest, hcontent⟩ := List.head?_eq_some_iff.1 hhead
    rw [hcontent] at hskip
    simp [Text.trim_ne_nil (c := 's') rfl] at hskip
  · exact takes_of_readLine h (Bool.eq_false_iff.2 ‹_›)

/-- What holds of nothing and is kept by every line that is read holds of what is read. -/
theorem foldlM_read_induction {P : List (List Char) → Draft → Prop} (hnil : P [] {})
    (htakes : ∀ ls line d d', P ls d → Takes line d d' → P (ls ++ [line]) d')
    {ls : List (List Char)} {d : Draft} (h : ls.zipIdx.foldlM read {} = .ok d) : P ls d := by
  induction ls using List.reverseRecOn generalizing d with
  | nil =>
    obtain rfl := Except.ok.inj h
    exact hnil
  | append_singleton ls line ih =>
    rw [List.zipIdx_append, List.foldlM_append] at h
    obtain ⟨d', hls, h⟩ := exists_of_bind_eq_ok h
    rw [List.zipIdx_singleton, Nat.zero_add] at h
    obtain ⟨d'', hline, h⟩ := exists_of_foldlM_cons_eq_ok h
    obtain rfl := Except.ok.inj h
    exact htakes ls line d' _ (ih hls) (takes_of_read hline)

end Draft

theorem exists_of_ofListing {text : String} (h : ofListing text = .ok a) :
    ∃ inRules, (Text.lines text.toList).zipIdx.foldlM Draft.read {} = .ok ⟨some a, inRules⟩ := by
  obtain ⟨⟨_ | b, inRules⟩, hread, h⟩ := exists_of_bind_eq_ok h
  · cases h
  · obtain rfl := Except.ok.inj h
    exact ⟨inRules, hread⟩

/-! ### What all automata that are read have in common -/

/-- The automaton has nothing that a listing cannot tell: states, of which the final ones ascend,
and edges between them. -/
structure Loaded (a : Automaton) : Prop where
  pos : 0 < a.stateCount
  flags_eq : a.flags = {}
  groups_eq : a.groups = []
  ascending : a.finals.Pairwise (· < ·)
  lt_of_mem_finals : ∀ id ∈ a.finals, id < a.stateCount
  bounded : a.Bounded

/-- Every label is taken for itself in a listing. -/
def Legible (a : Automaton) : Prop :=
  ∀ id, ∀ e ∈ a.edgesOf id, e.label.Legible

theorem edgesOf_ofCount (count : Nat) (flags : Flags) (id : Nat) :
    (ofCount count flags).edgesOf id = [] := by
  simp only [edgesOf, edges?, ofCount, Array.getElem?_replicate]
  split <;> rfl

theorem loaded_ofCount (n : Nat) : (ofCount n {}).Loaded where
  pos := by simp [stateCount, ofCount]
  flags_eq := rfl
  groups_eq := rfl
  ascending := .nil
  lt_of_mem_finals := by simp [ofCount]
  bounded := fun id e he => by simp [edgesOf_ofCount] at he

theorem insertId_pairwise {ids : List Nat} (h : ids.Pairwise (· < ·)) :
    (insertId id ids).Pairwise (· < ·) := by
  fun_induction insertId id ids <;> grind [List.pairwise_cons]

theorem Loaded.setFinals {ids : List Nat} (h : a.Loaded) (hids : ∀ id ∈ ids, id < a.stateCount) :
    (ids.foldl setFinal a).Loaded := by
  induction ids generalizing a with
  | nil => exact h
  | cons id ids ih =>
    obtain ⟨hid, hids⟩ := List.forall_mem_cons.1 hids
    refine ih { h with ascending := insertId_pairwise h.ascending, lt_of_mem_finals := ?_ } hids
    intro x hx
    rcases mem_insertId.1 hx with rfl | hx
    · exact hid
    · exact h.lt_of_mem_finals x hx

theorem Loaded.addEdges {source : Nat} {edges : List Edge} (h : a.Loaded)
    (hs : source < a.stateCount) (ht : ∀ e ∈ edges, e.target < a.stateCount) :
    (a.addEdges source edges).Loaded := by
  induction edges generalizing a with
  | nil => exact h
  | cons e edges ih =>
    obtain ⟨ht, hts⟩ := List.forall_mem_cons.1 ht
    have hcount := stateCount_addEdge a source e.label e.target .last
    refine ih { h with
      pos := hcount ▸ h.pos
      lt_of_mem_finals := fun id hid => hcount ▸ h.lt_of_mem_finals id hid
      bounded := h.bounded.addEdge hs ht } (hcount ▸ hs) (hcount ▸ hts)

theorem legible_ofCount (n : Nat) : (ofCount n {}).Legible := fun id e he => by
  simp [edgesOf_ofCount] at he

theorem Legible.setFinals (h : a.Legible) (ids : List Nat) : (ids.foldl setFinal a).Legible := by
  rw [foldl_setFinal]
  exact h

theorem Legible.addEdges {source : Nat} {edges : List Edge} (h : a.Legible)
    (hs : source < a.stateCount) (hl : ∀ e ∈ edges, e.label.Legible) :
    (a.addEdges source edges).Legible := fun id e he => by
  rw [edgesOf_addEdges hs] at he
  split at he
  · exact (List.mem_append.1 he).elim (h id e) (hl e)
  · exact h id e he

namespace Draft

variable {d d' : Draft}

/-- What holds of automata without edges and is kept by final states and by rules is kept by every
line. -/
theorem Takes.keeps {P : Automaton → Prop} (h : Takes line d d')
    (hcount : ∀ count, P (ofCount count {}))
    (hfinals : ∀ a (ids : List Nat), P a → (∀ id ∈ ids, id < a.stateCount) →
      P (ids.foldl setFinal a))
    (hrule : ∀ a (r : Rule), P a → r.Spells (content line) → r.source < a.stateCount →
      r.target < a.stateCount → P (a.addEdges (stateId r.source) r.edges))
    (hd : ∀ a, d.automaton = some a → P a) : ∀ a, d'.automaton = some a → P a := by
  intro b hb
  cases h with
  | pass | rules => exact hd b hb
  | states =>
    obtain rfl := Option.some.inj hb
    exact hcount _
  | finals _ _ hids =>
    obtain rfl := Option.some.inj hb
    exact hfinals _ _ (hd _ rfl) hids
  | rule _ _ hspells hs ht =>
    obtain rfl := Option.some.inj hb
    exact hrule _ _ (hd _ rfl) hspells hs ht

theorem Takes.loaded (h : Takes line d d') (hd : ∀ a, d.automaton = some a → a.Loaded) :
    ∀ a, d'.automaton = some a → a.Loaded := by
  refine h.keeps loaded_ofCount (fun _ _ ha hids => ha.setFinals hids) ?_ hd
  intro a r ha _ hs ht
  refine ha.addEdges (stateId_lt hs) fun e he => ?_
  obtain ⟨l, -, rfl⟩ := List.mem_map.1 he
  exact stateId_lt ht

theorem Takes.legible (h : Takes line d d') (hline : Text.Unbroken (content line))
    (hd : ∀ a, d.automaton = some a → a.Legible) : ∀ a, d'.automaton = some a → a.Legible := by
  refine h.keeps legible_ofCount (fun _ ids ha _ => ha.setFinals ids) ?_ hd
  intro a r ha hspells hs _
  refine ha.addEdges (stateId_lt hs) fun e he => ?_
  obtain ⟨l, hmem, rfl⟩ := List.mem_map.1 he
  exact hspells.legible hline l hmem

/-- Only a `states:` line changes the number of states. -/
theorem Takes.stateCount_eq (h : Takes line d d') :
    d'.automaton.map stateCount =
      (statesText? line).elim (d.automaton.map stateCount) countOf? := by
  cases h with
  | pass _ hline => rw [hline, Option.elim_none]
  | states _ hline hcount hpos =>
    rw [hline, Option.elim_some, hcount, Option.map_some, stateCount, ofCount,
      Array.size_replicate, Nat.max_eq_left hpos]
  | finals hline => rw [hline, Option.elim_none, foldl_setFinal]; rfl
  | rules hline => rw [hline, Option.elim_none]
  | rule hline => rw [hline, Option.elim_none, Option.map_some, stateCount_addEdges]; rfl

end Draft

/-- The number on the last `states:` line of a text. -/
def declaredCount? (text : String) : Option Nat :=
  ((Text.lines text.toList).reverse.findSome? Draft.statesText?).bind Draft.countOf?

variable {text : String}

/-- Whatever the order of the lines is, an automaton that is read has a state and nothing
dangles. -/
theorem loaded_of_ofListing (h : ofListing text = .ok a) : a.Loaded := by
  obtain ⟨inRules, hread⟩ := exists_of_ofListing h
  exact Draft.foldlM_read_induction (P := fun _ d => ∀ a, d.automaton = some a → a.Loaded)
    nofun (fun _ _ _ _ hd htakes => htakes.loaded hd) hread a rfl

theorem legible_of_ofListing (hcr : '\r' ∉ text.toList) (h : ofListing text = .ok a) :
    a.Legible := by
  obtain ⟨inRules, hread⟩ := exists_of_ofListing h
  refine Draft.foldlM_read_induction
    (P := fun ls d => (∀ line ∈ ls, Text.Unbroken line) → ∀ a, d.automaton = some a → a.Legible)
    nofun (fun ls line d d' hd htakes hls => ?_) hread
    (fun _ => Text.unbroken_of_mem_lines hcr) a rfl
  obtain ⟨hls, hline⟩ := List.forall_mem_append.1 hls
  have hline := hline line (List.mem_singleton_self line)
  exact htakes.legible ((Draft.content_eq hline.isLine).symm ▸ hline) (hd hls)

/-- The last `states:` line tells how many states there are. -/
theorem declaredCount?_eq (h : ofListing text = .ok a) :
    declaredCount? text = some a.stateCount := by
  obtain ⟨inRules, hread⟩ := exists_of_ofListing h
  have hcount := Draft.foldlM_read_induction
    (P := fun ls d => d.automaton.map stateCount =
      (ls.reverse.findSome? Draft.statesText?).bind Draft.countOf?)
    rfl (fun ls line d d' hd htakes => ?_) hread
  · exact hcount.symm
  · rw [htakes.stateCount_eq, hd, List.reverse_append, List.reverse_singleton, List.singleton_append,
      List.findSome?_cons]
    cases Draft.statesText? line <;> rfl

/-! ### Listings of automata that were read -/

theorem insertId_of_forall_lt {ids : List Nat} (h : ∀ x ∈ ids, x < id) :
    insertId id ids = ids ++ [id] := by
  induction ids with
  | nil => rfl
  | cons x ids ih =>
    obtain ⟨hx, hids⟩ := List.forall_mem_cons.1 h
    rw [insertId, if_neg hx.not_gt, if_neg hx.ne', ih hids, List.cons_append]

theorem foldl_insertId (acc : List Nat) {ids : List Nat} (h : (acc ++ ids).Pairwise (· < ·)) :
    ids.foldl (fun ids id => insertId id ids) acc = acc ++ ids := by
  induction ids generalizing acc with
  | nil => simp
  | cons id ids ih =>
    have hlt : ∀ x ∈ acc, x < id := fun x hx => (List.pairwise_append.1 h).2.2 x hx id (by simp)
    rw [List.foldl_cons, insertId_of_forall_lt hlt, ih _ (by simpa using h), List.append_assoc,
      List.singleton_append]

theorem Loaded.reloaded_eq (h : a.Loaded) (hl : a.Legible) : a.reloaded = a := by
  have hstates : a.reloaded.states = a.states := Array.ext_getElem? fun id =>
    (edges?_reloaded_eq_iff a id).2 fun e he => (Label.legible_iff.1 (hl id e he)).2
  have hfinals : a.reloaded.finals = a.finals := foldl_insertId [] h.ascending
  have hgroups : a.reloaded.groups = a.groups := h.groups_eq.symm
  have hflags : a.reloaded.flags = a.flags := h.flags_eq.symm
  obtain ⟨states, finals, groups, flags⟩ := a
  exact (Automaton.mk.injEq ..).mpr ⟨hstates, hfinals, hgroups, hflags⟩

/-- An automaton that was read from a text without carriage returns is read from its own listing, as
long as there are enough ids for its states. -/
theorem listing_stable (hcr : '\r' ∉ text.toList) (h : ofListing text = .ok a)
    (hcount : ∃ n, declaredCount? text = some n ∧ n ≤ 2 ^ 32) :
    ofListing (a.listing .plain) = .ok a := by
  have hloaded := loaded_of_ofListing h
  have hlegible := legible_of_ofListing hcr h
  obtain ⟨n, hn, hle⟩ := hcount
  obtain rfl := Option.some.inj ((declaredCount?_eq h).symm.trans hn)
  rw [ofListing_listing_of_bounded hloaded.pos hle hloaded.lt_of_mem_finals hloaded.bounded
    fun id e he => (Label.legible_iff.1 (hlegible id e he)).1, hloaded.reloaded_eq hlegible]

/-- A listing that is started anew and has blanks for labels, signs and comments. -/
def rough : String :=
  "# twice\nstates: 7\nrules:\n6->6 z\n#\nstates: +3 \ntype: nfa\nfinal: 2  0 2\n" ++
    "rules:\n 1 ->02\n0->1  \n0->1 a   \\d --a \\\n\t\n2->0 \\b #"

/-- The automaton that the rough listing is read as. -/
def planed : Automaton where
  states := #[[⟨.char ' ', 1⟩, ⟨.char 'a', 1⟩, ⟨.char ' ', 1⟩, ⟨.charClass .digit, 1⟩,
    ⟨.range '-' 'a', 1⟩, ⟨.char '\\', 1⟩],
    [⟨.epsilon none, 2⟩], [⟨.epsilon (some .wordBoundary), 0⟩, ⟨.char '#', 0⟩]]
  finals := [0, 2]

theorem listing_stable_rough :
    ('\r' ∉ rough.toList ∧ ofListing rough = .ok planed ∧
      ∃ n, declaredCount? rough = some n ∧ n ≤ 2 ^ 32) ∧
      ofListing (planed.listing .plain) = .ok planed := by
  have hcr : '\r' ∉ rough.toList := by decide +kernel
  have hread : ofListing rough = .ok planed := by decide +kernel
  have hcount : ∃ n, declaredCount? rough = some n ∧ n ≤ 2 ^ 32 :=
    ⟨3, by decide +kernel, by decide⟩
  exact ⟨⟨hcr, hread, hcount⟩, listing_stable hcr hread hcount⟩

end Automaton

end PatternAutomata
