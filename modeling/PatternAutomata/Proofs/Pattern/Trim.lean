import PatternAutomata.Proofs.Automaton.Dangling
import PatternAutomata.Proofs.Pattern.Captures
import PatternAutomata.Proofs.Pattern.Effort
import PatternAutomata.Proofs.Region.Reachability

/-!
# The automaton of a pattern is trim

Nothing in the automaton of a pattern refers to a state that is not there, a search that begins at
state 0 can get to every state, and from every state it can get to the one where it ends.

## Main definition

* `Automaton.Trim` — no state and no copy of a group is in vain.

## Main statement

* `Pattern.trim_of_build` — the automaton of a pattern is trim, and nothing is wrong with it.
-/
namespace PatternAutomata

/-- Nothing dangles, there is one final state, every state lies on the way to it from state 0, to
which nothing leads back, and every copy of a group lies on the way from its entry to its exit. -/
structure Automaton.Trim (a : Automaton) : Prop where
  danglingIds_eq : a.danglingIds = []
  final : ∃ final < a.stateCount, a.finals = [final] ∧ a.edgesOf final = [] ∧
    ∀ id < a.stateCount, Edge.Reaches a.edgesOf 0 id ∧ Edge.Reaches a.edgesOf id final
  target_ne : ∀ id, ∀ e ∈ a.edgesOf id, e.target ≠ 0
  span : ∀ g ∈ a.groups, ∀ s ∈ g.spans,
    s.entry < s.exit ∧ s.exit < a.stateCount ∧ Edge.Reaches a.edgesOf s.entry s.exit

namespace Automaton

variable {a : Automaton} {r : Region}

/-- Ids below the number of states do not dangle, as long as that number is a word itself. -/
theorem danglingIds_eq_nil (hw : a.stateCount < 2 ^ 32)
    (h : ∀ id ∈ a.mentionedIds, id < a.stateCount) : a.danglingIds = [] := by
  rw [List.eq_nil_iff_forall_not_mem]
  intro id hid
  obtain ⟨hmem, hle⟩ := mem_danglingIds.1 hid
  have hcount : stateId a.stateCount = a.stateCount := Nat.mod_eq_of_lt hw
  exact absurd (h id hmem) (Nat.not_lt.2 (hcount ▸ hle))

theorem Trim.defect?_eq_none (h : a.Trim) : a.defect? = none := by
  obtain ⟨final, -, hfinals, -⟩ := h.final
  rw [defect?, h.danglingIds_eq, hfinals]
  simp only [List.isEmpty_nil, if_true, List.isEmpty_cons, Bool.false_eq_true, if_false]
  rw [List.findSome?_eq_none_iff]
  rintro ⟨index, s⟩ hs
  obtain ⟨g, hg, hs⟩ := List.mem_flatMap.1 hs
  obtain ⟨s, hs, heq⟩ := List.mem_map.1 hs
  cases heq
  obtain ⟨hlt, hexit, -⟩ := h.span g hg s (List.mem_reverse.1 hs)
  simp [hasState, hlt.trans hexit, hexit]

/-- The copies that were recorded for a group are kept with its index. -/
theorem mem_spans_of_record {spans : List (Nat × GroupSpan)} {n : Nat} {g : Group} {s : GroupSpan}
    (hspans : ∀ s ∈ spans, 1 ≤ s.1 ∧ s.1 < 1 + n)
    (h : a.groups = Group.record spans (Group.list (fun _ => []) 1 n)) (hg : g ∈ a.groups)
    (hs : s ∈ g.spans) : (g.index, s) ∈ spans := by
  rw [h, Group.record_list hspans, Group.list] at hg
  obtain ⟨i, -, rfl⟩ := List.mem_map.1 hg
  rw [List.append_nil] at hs
  exact Group.mem_copies.1 hs

/-- The ids of a region are those of its states. -/
theorem IsRegion.mentionedIds_lt (h : a.IsRegion r) {final : Nat} (hfinals : a.finals = [final])
    (hspans : ∀ g ∈ a.groups, ∀ s ∈ g.spans, (g.index, s) ∈ r.spans) :
    ∀ id ∈ a.mentionedIds, id < a.stateCount := by
  intro id hid
  rw [mentionedIds, hfinals] at hid
  rcases List.mem_append.1 hid with hid | hid
  · rcases List.mem_append.1 hid with hid | hid
    · obtain ⟨edges, hedges, hid⟩ := List.mem_flatMap.1 hid
      obtain ⟨e, he, rfl⟩ := List.mem_map.1 hid
      obtain ⟨source, hsource, rfl⟩ := List.mem_iff_getElem.1 hedges
      have hlt : source < a.states.size := by simpa using hsource
      have hedge : e ∈ a.edgesOf source := by
        simpa [edgesOf, edges?, Array.getElem?_eq_getElem hlt] using he
      exact h.closed.target_lt source e hedge
    · have hexit : id = r.exit 0 := by
        refine (h.final_iff id).1 ?_
        rw [isFinal, hfinals]
        simpa using hid
      have := h.numbered.exit_mem 0
      have := h.closed.pos
      omega
  · obtain ⟨g, hg, hid⟩ := List.mem_flatMap.1 hid
    obtain ⟨s, hs, hid⟩ := List.mem_flatMap.1 hid
    have hspan := h.numbered.span_mem (hspans g hg s hs)
    simp only [List.mem_cons, List.not_mem_nil, or_false] at hid
    omega

/-- A region whose copies of groups are those that were recorded is trim. -/
theorem IsRegion.trim (h : a.IsRegion r) (hw : a.stateCount < 2 ^ 32) {final : Nat}
    (hfinals : a.finals = [final])
    (hspans : ∀ g ∈ a.groups, ∀ s ∈ g.spans, (g.index, s) ∈ r.spans) : a.Trim := by
  have hfinal : final = r.exit 0 := by
    refine (h.final_iff final).1 ?_
    rw [isFinal, hfinals]
    simp
  subst hfinal
  constructor
  case danglingIds_eq => exact danglingIds_eq_nil hw (h.mentionedIds_lt hfinals hspans)
  case final =>
    have hexit := h.numbered.exit_mem 0
    have hpos := h.closed.pos
    refine ⟨r.exit 0, by omega, hfinals, h.open_exit, fun id hid => ?_⟩
    exact h.fits.traversed h.numbered (by omega)
  case target_ne =>
    intro id e he
    exact (h.singleEntry.target_pos id e he).ne'
  case span =>
    intro g hg s hs
    have hspan := h.numbered.span_mem (hspans g hg s hs)
    exact ⟨hspan.2.1, hspan.2.2, h.fits.span_reaches h.numbered (hspans g hg s hs)⟩

end Automaton

namespace Pattern

/-- The automaton of a pattern of fewer than `2 ^ 29` nodes is trim, so that it has no defect. -/
theorem trim_of_build {p : Pattern} {flags : Flags} {a : Automaton} (hn : p.nodes < 2 ^ 29)
    (hb : p.build flags = .ok a) : a.Trim ∧ a.defect? = none := by
  obtain ⟨r, hr, hregion, -, hgroups⟩ := renders_of_build hn hb
  obtain ⟨hw, final, hfinals⟩ := finals_of_build hn hb
  have htrim : a.Trim := hregion.trim hw hfinals fun g hg s hs =>
    Automaton.mem_spans_of_record (index_mem_of_build hr hb) hgroups hg hs
  exact ⟨htrim, htrim.defect?_eq_none⟩

/-- Copies in a loop, a copy that is made no times, and a branch without states of its own:
`(?:(a){2,3}|(b){0}|)*?`. -/
def copiesInLoop : Pattern :=
  .repeated (.group none (.alternation [
    .repeated (.group (some 1) (.char 'a')) (.counted 2 (some 3)) true,
    .repeated (.group (some 2) (.char 'b')) (.counted 0 (some 0)) true, .sequence []])) .star false

theorem trim_of_build_copiesInLoop :
    copiesInLoop.nodes < 2 ^ 29 ∧ ∃ a, copiesInLoop.build {} = .ok a ∧
      (a.spansOf 1).length = 3 ∧ a.Trim := by
  obtain ⟨a, hb⟩ := exists_of_isOk (x := copiesInLoop.build {}) (by decide +kernel)
  have hspans : (copiesInLoop.build {}).map (fun a => (a.spansOf 1).length) = .ok 3 := by
    decide +kernel
  rw [hb] at hspans
  exact ⟨by decide, a, hb, Except.ok.inj hspans, (trim_of_build (by decide) hb).1⟩

end Pattern

end PatternAutomata
