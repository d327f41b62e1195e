import PatternAutomata.Proofs.Search.Run

/-!
# Dangling ids

Where no id dangles, every edge leads to a state, so that a search never meets one that is missing.

## Main definition

* `Automaton.tangle` — an automaton full of circles, without dangling ids.

## Main statement

* `Automaton.closed_of_danglingIds` — an automaton with a state and without dangling ids is closed.
-/
namespace PatternAutomata

@[grind =] theorem mem_insertId {x id : Nat} {ids : List Nat} :
    x ∈ insertId id ids ↔ x = id ∨ x ∈ ids := by
  fun_induction insertId id ids <;> grind

theorem mem_foldl_insertId {x : Nat} {ids acc : List Nat} :
    x ∈ ids.foldl (fun acc id => insertId id acc) acc ↔ x ∈ ids ∨ x ∈ acc := by
  induction ids generalizing acc <;> grind

namespace Automaton

variable {a : Automaton} {id : Nat}

/-- The dangling ids are the mentioned ones that are no less than the number of states. -/
theorem mem_danglingIds :
    id ∈ a.danglingIds ↔ id ∈ a.mentionedIds ∧ stateId a.stateCount ≤ id := by
  simp [danglingIds, mem_foldl_insertId]

theorem target_mem_mentionedIds {e : Edge} (he : e ∈ a.edgesOf id) :
    e.target ∈ a.mentionedIds := by
  unfold edgesOf edges? at he
  cases hs : a.states[id]? with
  | none => simp [hs] at he
  | some edges =>
    rw [hs] at he
    have hmem : edges ∈ a.states.toList := Array.mem_toList_iff.2 (Array.mem_of_getElem? hs)
    have htarget : e.target ∈ edges.map (·.target) := List.mem_map_of_mem he
    exact List.mem_append_left _ (List.mem_append_left _ (List.mem_flatMap.2 ⟨_, hmem, htarget⟩))

/-- Ids are 32-bit words, so that those of an automaton with more states are compared with the
remainder of their number; nothing dangles past the number itself either way. -/
theorem closed_of_danglingIds (hpos : 0 < a.stateCount) (hd : a.danglingIds = []) : a.Closed := by
  refine ⟨hpos, fun id e he => ?_⟩
  have hnot : e.target ∉ a.danglingIds := by simp [hd]
  have hlt : e.target < stateId a.stateCount := by
    have := target_mem_mentionedIds he
    grind [mem_danglingIds]
  exact hlt.trans_le (Nat.mod_le _ _)

/-- An automaton in which edges that consume nothing lead from state 0 to itself and from every
state but the last back to the one before, and two edges consume a letter on the way to state 2. -/
def tangle : Automaton where
  states := #[[.free 0, .free 1], [.free 0, ⟨.range 'a' 'é', 2⟩, ⟨.range 'a' 'z', 2⟩],
    [.free 1, ⟨.epsilon (some .finish), 3⟩], []]
  finals := [3]

end Automaton

end PatternAutomata
