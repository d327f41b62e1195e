import PatternAutomata.Proofs.Automaton.Dangling
import PatternAutomata.Proofs.Search.Acceptance

/-!
# Every search halts

The weight of a machine bounds the number of turns that it still takes, whatever the automaton, the
text and the limits are: edges may lead round in circles without consuming, and many of them may
consume the same character on the way to one state.

## Main statement

* `Automaton.exec_halts` — a search without limits halts with a result, after at most one turn more
  than its first machine weighs.
-/
namespace PatternAutomata

namespace Matcher

/-- The machine halts within as many turns as it weighs, and one more. -/
theorem exists_within (m : Matcher) (text : String) (machine : Machine) {n : Nat}
    (h : m.weight text machine < n) : ∃ result, m.within text n machine = some result := by
  induction n generalizing machine with
  | zero => exact absurd h (Nat.not_lt_zero _)
  | succ n ih =>
    unfold within
    cases hturn : m.turn text machine with
    | halted result => exact ⟨result, rfl⟩
    | next machine' =>
      have hlt := weight_lt_of_turn hturn
      exact ih machine' (by omega)

end Matcher

namespace Automaton

variable {a : Automaton}

/-- A search without limits in an automaton without dangling ids halts with a result, from wherever
it starts. Its pending paths, the visits not yet made and the rest of the text have a weight, which
every turn makes smaller, and which bounds the number of turns. -/
theorem exec_halts (hpos : 0 < a.stateCount) (hd : a.danglingIds = []) (text : String)
    (start : Nat) :
    (∀ machine machine', Matcher.turn ⟨a, {}⟩ text machine = .next machine' →
      Matcher.weight ⟨a, {}⟩ text machine' < Matcher.weight ⟨a, {}⟩ text machine) ∧
    ∃ result, Matcher.exec ⟨a, {}⟩ text start = .ok result ∧
      Matcher.execWithin ⟨a, {}⟩ text start
        (Matcher.weight ⟨a, {}⟩ text (a.machineAt start) + 1) = some (.ok result) := by
  have hc := closed_of_danglingIds hpos hd
  refine ⟨fun machine machine' => Matcher.weight_lt_of_turn, ?_⟩
  obtain ⟨outcome, hwithin⟩ := Matcher.exists_within ⟨a, {}⟩ text (a.machineAt start)
    (Nat.lt_succ_self _)
  have hexec : Matcher.execWithin ⟨a, {}⟩ text start
      (Matcher.weight ⟨a, {}⟩ text (a.machineAt start) + 1) = some outcome := by
    rw [Matcher.execWithin, machineAt_eq hc start]
    exact hwithin
  obtain ⟨result, hresult, -⟩ := exec_accepting text hc start
  obtain rfl := (Matcher.exec_of_execWithin hexec).symm.trans hresult
  exact ⟨result, hresult, hexec⟩

theorem exec_halts_tangle :
    0 < tangle.stateCount ∧ tangle.danglingIds = [] ∧
      ∃ result, Matcher.exec ⟨tangle, {}⟩ "éaa1" 0 = .ok result :=
  have hpos : 0 < tangle.stateCount := by decide
  have hd : tangle.danglingIds = [] := by decide
  have ⟨result, hexec, _⟩ := (exec_halts hpos hd "éaa1" 0).2
  ⟨hpos, hd, result, hexec⟩

end Automaton

end PatternAutomata
