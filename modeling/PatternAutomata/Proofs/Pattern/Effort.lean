import PatternAutomata.Proofs.Pattern.Acceptance
import PatternAutomata.Proofs.Region.Arrows
import PatternAutomata.Proofs.Search.Distinct
import PatternAutomata.Proofs.Search.Events

/-!
# The effort of a search for a pattern

In the automaton of a pattern a consuming edge is alone where it begins and where it ends. So a
search for the pattern makes no visit twice, and the number of its visits is linear in the length
of the text.

## Main statement

* `Pattern.exec_linear` — the visits of a search for a pattern, and limits that it never meets.
-/
namespace PatternAutomata

/-- Every edge of the automaton is an arrow of the region. -/
theorem Automaton.IsRegion.arrow {a : Automaton} {r : Region} (h : a.IsRegion r) {id : Nat}
    {e : Edge} (he : e ∈ a.edgesOf id) : r.Arrow 0 id e := by
  have hne : id ≠ r.exit 0 := by
    rintro rfl
    rw [h.open_exit] at he
    cases he
  have hlt : id < a.stateCount := by
    by_contra hge
    rw [edgesOf_eq_nil (Nat.le_of_not_lt hge)] at he
    cases he
  exact h.fits.arrow h.numbered Nat.one_pos (by omega) hne he

theorem Automaton.IsRegion.singleEntry {a : Automaton} {r : Region} (h : a.IsRegion r) :
    a.SingleEntry where
  target_pos _ _ he := ((h.arrow he).target_mem h.numbered).1
  edges_eq _ _ he hc := (h.arrow he).edges_eq h.fits hc
  source_eq _ _ he hc _ _ he' ht := (h.arrow he).eq_of_target h.numbered hc (h.arrow he') ht

namespace Pattern

/-- A search for a pattern of fewer than `2 ^ 29` nodes takes up no visit twice, and no more visits
than there are states times offsets from its start on. Limits that are not below that number are
never met. -/
theorem exec_linear {p : Pattern} {flags : Flags} {a : Automaton} (hn : p.nodes < 2 ^ 29)
    (hb : p.build flags = .ok a) (limits : Limits) {text : String} {start : Nat}
    (hs : Text.IsBoundary text start) :
    ∃ events rest,
      Matcher.traceExec ⟨a, limits⟩ text start = (events, Matcher.exec ⟨a, limits⟩ text start) ∧
      Text.slice? text start text.utf8ByteSize = some rest ∧
      (events.filterMap Event.popped?).Nodup ∧
      (events.filterMap Event.popped?).length ≤ a.stateCount * (rest.length + 1) ∧
      (limits.AtLeast (a.stateCount * (rest.length + 1)) →
        ∃ result, Matcher.exec ⟨a, limits⟩ text start = .ok result) := by
  obtain ⟨r, -, hregion, -⟩ := renders_of_build hn hb
  have hsingle := hregion.singleEntry
  have hc := hregion.closed
  obtain ⟨before, rest, rfl, rfl⟩ := Text.isBoundary_iff.1 hs
  have hrest : Text.slice? (before ++ rest) before.utf8ByteSize (before ++ rest).utf8ByteSize =
      some rest :=
    Text.slice?_eq_some_iff.2 ⟨before, "", by simp, rfl, rfl⟩
  obtain ⟨taken, machine, harises, hbegins⟩ :=
    Matcher.exists_arises_of_traceExec (m := ⟨a, limits⟩) hc (before ++ rest) before.utf8ByteSize
  have hnodup : (taken.reverse ++ machine.pending.map (·.last)).Nodup :=
    ((List.reverse_perm taken).append_right _).nodup_iff.2 (harises.apart hsingle hc).nodup
  have hlength := harises.length_le hsingle hc
  refine ⟨_, rest, Prod.ext rfl (Matcher.traceExec_snd ..), hrest, hbegins.sublist.nodup hnodup,
    ?_, ?_⟩
  · exact hbegins.length_le.trans (by simpa using hlength)
  · intro hl
    obtain ⟨result, hresult, -⟩ := Automaton.exec_accepting (before ++ rest) hc before.utf8ByteSize
    refine ⟨result, ?_⟩
    rw [Matcher.exec_eq_of_atLeast hc (fun _ _ h => h.length_le hsingle hc) hl]
    exact hresult

/-- A search for the nested loops from behind the first character, under the least limits that it
never meets. -/
theorem exec_linear_nestedLoops :
    nestedLoops.nodes < 2 ^ 29 ∧ Text.IsBoundary "éaab" 2 ∧
      ∃ a limits, nestedLoops.build {} = .ok a ∧
        limits.AtLeast (a.stateCount * ("aab".length + 1)) ∧
        ∃ events result, Matcher.traceExec ⟨a, limits⟩ "éaab" 2 = (events, .ok result) ∧
          (events.filterMap Event.popped?).Nodup := by
  have hn : nestedLoops.nodes < 2 ^ 29 := by decide
  have hs : Text.IsBoundary "éaab" 2 := by decide
  obtain ⟨a, hb⟩ := exists_of_isOk (x := nestedLoops.build {}) (by decide +kernel)
  let limits : Limits := ⟨some (a.stateCount * 4), some (a.stateCount * 4)⟩
  have hl : limits.AtLeast (a.stateCount * ("aab".length + 1)) := by
    constructor <;> rintro limit ⟨⟩ <;> exact le_rfl
  obtain ⟨events, rest, htrace, hrest, hnodup, -, hexec⟩ := exec_linear hn hb limits hs
  obtain rfl : rest = "aab" := Option.some.inj (hrest.symm.trans (by decide +kernel))
  obtain ⟨result, hresult⟩ := hexec hl
  exact ⟨hn, hs, a, limits, hb, hl, events, result, hresult ▸ htrace, hnodup⟩

end Pattern

end PatternAutomata
