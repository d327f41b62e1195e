import PatternAutomata.Proofs.Automaton.Dangling
import PatternAutomata.Proofs.Pattern.Rendering
import PatternAutomata.Proofs.Region.Arrows
import PatternAutomata.Proofs.Region.Capture

/-!
# Fragments do not leak

A pattern can be built into any automaton, from any state there without edges. What is built lies
between that state and the exit: the rest of the automaton is as it was, and nothing new leads into
it. So fragments can be put one behind the other, into branches and into blocks, without a look at
what is inside them.

## Main definitions

* `Automaton.incoming` — the edges that lead to a state.
* `Automaton.Confined` — an automaton is another one with a fragment added that does not leak.

## Main statement

* `Pattern.confined_fragment` — what is built for a pattern does not leak.
-/
namespace PatternAutomata

namespace Automaton

/-- The edges that lead to state `target`, each with the state that it leaves. -/
def incoming (a : Automaton) (target : Nat) : List (Nat × Edge) :=
  (List.range a.stateCount).flatMap fun id =>
    ((a.edgesOf id).filter (·.target == target)).map (id, ·)

/-- The automaton `a'` is `a` with a fragment added that is entered at `entry` and left at `exit`.
All other states that were there keep their edges. New edges leave the entry or a new state, and
lead to a new state. No edge leaves the exit, and if the exit is the entry, nothing was added. Where
a consuming edge leads to a new state, no other edge does. -/
structure Confined (entry : Nat) (a : Automaton) (exit : Nat) (a' : Automaton) : Prop where
  stateCount_le : a.stateCount ≤ a'.stateCount
  kept : ∀ id < a.stateCount, id ≠ entry → a'.edges? id = a.edges? id
  added : ∀ id, ∀ e ∈ a'.edgesOf id, e ∉ a.edgesOf id →
    (id = entry ∨ a.stateCount ≤ id) ∧ a.stateCount ≤ e.target ∧ e.target < a'.stateCount
  exit_mem : exit = entry ∨ a.stateCount ≤ exit ∧ exit < a'.stateCount
  exit_open : a'.edges? exit = some []
  eq_of_exit : exit = entry → a' = a
  incoming_eq : ∀ id, ∀ e ∈ a'.edgesOf id, e.label.isEpsilon = false → a.stateCount ≤ e.target →
    a'.incoming e.target = [(id, e)]

variable {a a' : Automaton} {id target : Nat} {e : Edge}

theorem lt_of_mem_edgesOf (h : e ∈ a.edgesOf id) : id < a.stateCount := by
  by_contra hle
  rw [edgesOf_eq_nil (Nat.le_of_not_lt hle)] at h
  cases h

theorem states_eq (hcount : a'.stateCount = a.stateCount)
    (h : ∀ id, a'.edgesOf id = a.edgesOf id) : a'.states = a.states := by
  apply Array.ext_getElem?
  intro id
  by_cases hid : id < a.stateCount
  · have hid' : id < a'.stateCount := by omega
    exact (edges?_eq_some hid').trans ((edges?_eq_some hid).trans (by rw [h])).symm
  · have hle : a.states.size ≤ id := Nat.le_of_not_lt hid
    have hle' : a'.states.size ≤ id := hcount.trans_le hle
    rw [Array.getElem?_eq_none hle, Array.getElem?_eq_none hle']

/-- The members of a flat map all come from the one place where there are any. -/
theorem flatMap_range_eq {α : Type} {f : Nat → List α} {i n : Nat} (hi : i < n)
    (h : ∀ j, j ≠ i → f j = []) : (List.range n).flatMap f = f i := by
  induction n with
  | zero => omega
  | succ n ih =>
    rw [List.range_succ, List.flatMap_append, List.flatMap_singleton]
    by_cases hin : i = n
    · have hnil : (List.range n).flatMap f = [] := by
        rw [List.flatMap_eq_nil_iff]
        intro j hj
        have hlt := List.mem_range.1 hj
        exact h j (by omega)
      rw [hnil, List.nil_append, hin]
    · rw [ih (by omega), h n (Ne.symm hin), List.append_nil]

/-- An edge that is alone where it begins and where it ends. -/
theorem incoming_eq_singleton (he : a.edgesOf id = [e])
    (h : ∀ id', ∀ e' ∈ a.edgesOf id', e'.target = e.target → id' = id) :
    a.incoming e.target = [(id, e)] := by
  have hid : id < a.stateCount := lt_of_mem_edgesOf (he ▸ List.mem_singleton_self e)
  rw [incoming, flatMap_range_eq hid]
  · simp [he]
  · intro id' hne
    rw [List.map_eq_nil_iff, List.filter_eq_nil_iff]
    intro e' he' ht
    exact hne (h id' e' he' (beq_iff_eq.1 ht))

end Automaton

namespace Region

/-- A region without states of its own records no groups. -/
theorem Numbered.spans_eq_nil {r : Region} {lo : Nat} (h : r.Numbered lo lo) : r.spans = [] := by
  rw [List.eq_nil_iff_forall_not_mem]
  rintro ⟨index, g⟩ hg
  have := h.span_mem hg
  omega

end Region

namespace Laid

variable {r : Region} {entry exit id : Nat} {a a' : Automaton} {e : Edge}

/-- An edge of a state that was added, or of the entry, is one of the region. -/
theorem arrow (h : Laid r entry a exit a') (he : entry < a.stateCount)
    (hid : id = entry ∨ a.stateCount ≤ id) (hmem : e ∈ a'.edgesOf id) : r.Arrow entry id e := by
  have hlt : id < a'.stateCount := Automaton.lt_of_mem_edgesOf hmem
  have hfits : r.Fits a'.edgesOf entry := h.fits _ fun _ _ _ _ => rfl
  refine hfits.arrow h.numbered he (hid.imp_right fun hle => ⟨hle, hlt⟩) ?_ hmem
  rintro rfl
  rw [← h.exit_eq, h.open_exit] at hmem
  cases hmem

/-- An edge that leads to a state that was added is one of the region. -/
theorem arrow_of_target (h : Laid r entry a exit a') (he : entry < a.stateCount) (hb : a.Bounded)
    (hmem : e ∈ a'.edgesOf id) (ht : a.stateCount ≤ e.target) : r.Arrow entry id e := by
  refine h.arrow he ?_ hmem
  by_contra hold
  rw [not_or, Nat.not_le] at hold
  rw [h.frame id hold.2 hold.1] at hmem
  have := hb id e hmem
  omega

theorem eq_of_exit (h : Laid r entry a entry a') (he : entry < a.stateCount)
    (ho : a.edgesOf entry = []) : a' = a := by
  have hexit := h.numbered.exit_mem entry
  rw [← h.exit_eq] at hexit
  have hcount : a'.stateCount = a.stateCount := by omega
  have hnum := h.numbered
  rw [hcount] at hnum
  have hstates : a'.states = a.states := by
    refine Automaton.states_eq hcount fun id => ?_
    by_cases hid : id = entry
    · rw [hid, h.open_exit, ho]
    · by_cases hlt : id < a.stateCount
      · exact h.frame id hlt hid
      · rw [Automaton.edgesOf_eq_nil (by omega), Automaton.edgesOf_eq_nil (by omega)]
  have hgroups : a'.groups = a.groups := by
    rw [h.groups_eq, hnum.spans_eq_nil]
    rfl
  obtain ⟨states, finals, groups, flags⟩ := a
  obtain ⟨states', finals', groups', flags'⟩ := a'
  simp only [Automaton.mk.injEq]
  exact ⟨hstates, h.finals_eq, hgroups, h.flags_eq⟩

/-- A region that is laid into an automaton where nothing dangles does not leak. -/
theorem confined (h : Laid r entry a exit a') (he : entry < a.stateCount)
    (ho : a.edgesOf entry = []) (hb : a.Bounded) : a.Confined entry exit a' := by
  have hfits : r.Fits a'.edgesOf entry := h.fits _ fun _ _ _ _ => rfl
  have hle := h.numbered.le
  have hexit := h.numbered.exit_mem entry
  rw [← h.exit_eq] at hexit
  constructor
  case stateCount_le => exact hle
  case kept =>
    intro id hid hne
    rw [Automaton.edges?_eq_some hid, Automaton.edges?_eq_some (by omega), h.frame id hid hne]
  case added =>
    intro id e hmem hnew
    have hid : id = entry ∨ a.stateCount ≤ id := by
      by_contra hold
      rw [not_or, Nat.not_le] at hold
      exact hnew (h.frame id hold.2 hold.1 ▸ hmem)
    exact ⟨hid, (h.arrow he hid hmem).target_mem h.numbered⟩
  case exit_mem => exact hexit.imp_left And.left
  case exit_open =>
    rw [Automaton.edges?_eq_some (h.exit_lt he), h.open_exit]
  case eq_of_exit =>
    rintro rfl
    exact h.eq_of_exit he ho
  case incoming_eq =>
    intro id e hmem hc ht
    have harrow := h.arrow_of_target he hb hmem ht
    refine Automaton.incoming_eq_singleton (harrow.edges_eq hfits hc) fun id' e' hmem' ht' => ?_
    have harrow' := h.arrow_of_target he hb hmem' (ht' ▸ ht)
    exact harrow.eq_of_target h.numbered hc harrow' ht'

end Laid

namespace Pattern

variable {p : Pattern} {entry exit : Nat} {a a' : Automaton}

/-- What is built for a pattern, from an existing state without edges in an automaton without
dangling edges, does not leak, as long as the states are few enough to have ids of their own. -/
theorem confined_fragment (hb : a.Bounded) (ho : a.edges? entry = some [])
    (h : p.fragment entry a = .ok (exit, a')) (hw : a'.stateCount < 2 ^ 32) :
    a.Confined entry exit a' := by
  obtain ⟨he, -⟩ : ∃ _ : entry < a.stateCount, _ := Array.getElem?_eq_some_iff.1 ho
  have hnil : a.edgesOf entry = [] := by rw [Automaton.edgesOf, ho]; rfl
  obtain ⟨r, -, hlaid⟩ := p.lays_fragment h he hnil hw
  exact hlaid.confined he hnil hb

/-- A block around nothing, and a block around branches two of which add no states of their own:
`(?:)*(?:|(a){0}|b{2,})+?`. -/
def hollowBlocks : Pattern :=
  .sequence [.repeated (.sequence []) .star true,
    .repeated (.alternation [.sequence [],
      .repeated (.group (some 1) (.char 'a')) (.counted 0 (some 0)) true,
      .repeated (.char 'b') (.counted 2 none) true]) .plus false]

/-- Built from the last state of an automaton that has edges of its own; the `b` that may recur is
the only way to the state behind it. -/
theorem confined_fragment_hollowBlocks :
    Automaton.tangle.Bounded ∧ Automaton.tangle.edges? 3 = some [] ∧
      ∃ exit a', hollowBlocks.fragment 3 Automaton.tangle = .ok (exit, a') ∧
        a'.stateCount < 2 ^ 32 ∧ Automaton.tangle.Confined 3 exit a' ∧
        a'.incoming 17 = [(16, ⟨.char 'b', 17⟩)] := by
  have hb : Automaton.tangle.Bounded :=
    (Automaton.closed_of_danglingIds (by decide) (by decide)).target_lt
  have ho : Automaton.tangle.edges? 3 = some [] := by decide
  obtain ⟨⟨exit, a'⟩, h⟩ :=
    exists_of_isOk (x := hollowBlocks.fragment 3 Automaton.tangle) (by decide +kernel)
  have hcount : (hollowBlocks.fragment 3 Automaton.tangle).map
      (fun x => (x.2.stateCount, x.2.edgesOf 16)) = .ok (23, [⟨.char 'b', 17⟩]) := by
    decide +kernel
  rw [h] at hcount
  obtain ⟨hcount, hedges⟩ := Prod.mk.inj (Except.ok.inj hcount)
  have hw : a'.stateCount < 2 ^ 32 := by
    simp only at hcount
    omega
  have hconfined := confined_fragment hb ho h hw
  exact ⟨hb, ho, exit, a', h, hw, hconfined,
    hconfined.incoming_eq 16 ⟨.char 'b', 17⟩ (hedges ▸ List.mem_singleton_self _) rfl (by decide)⟩

end Pattern

end PatternAutomata
