import Mathlib.Algebra.Group.Nat.Defs
import PatternAutomata.Proofs.Search.Run

/-!
# Edges of a growing automaton

What adding a state or an edge does to the edges of each state.

## Main definitions

* `Automaton.attach` — a new state with an edge to it.
-/
namespace PatternAutomata.Automaton

variable {a : Automaton} {source target id : Nat} {label : Label} {priority : Priority}

@[simp] theorem stateCount_addState (a : Automaton) :
    a.addState.2.stateCount = a.stateCount + 1 := by
  simp [addState, stateCount]

theorem addState_fst (h : a.stateCount < 2 ^ 32) : a.addState.1 = a.stateCount :=
  Nat.mod_eq_of_lt h

@[simp] theorem edgesOf_addState (a : Automaton) (id : Nat) :
    a.addState.2.edgesOf id = a.edgesOf id := by
  simp only [addState, edgesOf, edges?, Array.getElem?_push]
  split <;> simp_all

@[simp] theorem stateCount_addEdge (a : Automaton) (source : Nat) (label : Label) (target : Nat)
    (priority : Priority) : (a.addEdge source label target priority).stateCount = a.stateCount := by
  simp [addEdge, stateCount]

theorem edgesOf_addEdge (h : source < a.stateCount) :
    (a.addEdge source label target priority).edgesOf id =
      if id = source then insertEdge (a.edgesOf id) ⟨label, target⟩ priority else a.edgesOf id := by
  have h' : source < a.states.size := h
  simp only [addEdge, edgesOf, edges?, Array.getElem?_modify]
  by_cases hid : source = id
  · subst hid
    simp [h']
  · simp [hid, Ne.symm hid]

@[simp] theorem stateCount_addEpsilon (a : Automaton) (source target : Nat) (priority : Priority) :
    (a.addEpsilon source target priority).stateCount = a.stateCount :=
  stateCount_addEdge ..

theorem edgesOf_addEpsilon (h : source < a.stateCount) :
    (a.addEpsilon source target priority).edgesOf id =
      if id = source then insertEdge (a.edgesOf id) (.free target) priority else a.edgesOf id :=
  edgesOf_addEdge h

/-- There are no edges to a state that is not there. -/
theorem edgesOf_eq_nil (h : a.stateCount ≤ id) : a.edgesOf id = [] := by
  have h' : a.states.size ≤ id := h
  simp [edgesOf, edges?, Array.getElem?_eq_none h']

/-- The automaton with a new state, and an edge to it from `source` as the last one there. -/
def attach (a : Automaton) (source : Nat) : Automaton :=
  a.addState.2.addEpsilon source a.addState.1 .last

@[simp] theorem stateCount_attach (a : Automaton) (source : Nat) :
    (a.attach source).stateCount = a.stateCount + 1 := by
  simp [attach]

theorem edgesOf_attach (hw : a.stateCount < 2 ^ 32) (h : source < a.stateCount) :
    (a.attach source).edgesOf id =
      if id = source then a.edgesOf id ++ [.free a.stateCount] else a.edgesOf id := by
  rw [attach, addState_fst hw, edgesOf_addEpsilon (by simp; omega), edgesOf_addState]
  rfl

/-- From a state without edges, the one to the new state is the only one. -/
theorem edgesOf_attach_open (hw : a.stateCount < 2 ^ 32) (h : source < a.stateCount)
    (ho : a.edgesOf source = []) (id : Nat) :
    (a.attach source).edgesOf id =
      if id = source then [.free a.stateCount] else a.edgesOf id := by
  rw [edgesOf_attach hw h]
  split
  case isTrue hid =>
    rw [hid, ho]
    rfl
  case isFalse => rfl

/-- The new state has no edges. -/
theorem edgesOf_attach_new (hw : a.stateCount < 2 ^ 32) (h : source < a.stateCount) :
    (a.attach source).edgesOf a.stateCount = [] := by
  rw [edgesOf_attach hw h, if_neg h.ne', edgesOf_eq_nil le_rfl]

@[simp] theorem stateCount_addSpan (a : Automaton) (index : Nat) (span : GroupSpan) :
    (a.addSpan index span).stateCount = a.stateCount := rfl

@[simp] theorem edgesOf_addSpan (a : Automaton) (index : Nat) (span : GroupSpan) (id : Nat) :
    (a.addSpan index span).edgesOf id = a.edgesOf id := rfl

/-- No edge leads out of the automaton. -/
def Bounded (a : Automaton) : Prop :=
  ∀ id, ∀ e ∈ a.edgesOf id, e.target < a.stateCount

theorem Bounded.addState (h : a.Bounded) : a.addState.2.Bounded := fun id e he => by
  rw [edgesOf_addState] at he
  exact (h id e he).trans (by simp)

theorem mem_insertEdge {edges : List Edge} {e f : Edge} :
    e ∈ insertEdge edges f priority ↔ e ∈ edges ∨ e = f := by
  cases priority <;> simp [insertEdge, or_comm]

theorem Bounded.addEdge (h : a.Bounded) (hs : source < a.stateCount) (ht : target < a.stateCount) :
    (a.addEdge source label target priority).Bounded := by
  intro id e he
  rw [edgesOf_addEdge hs] at he
  rw [stateCount_addEdge]
  split at he
  · rcases mem_insertEdge.1 he with he | rfl
    · exact h id e he
    · exact ht
  · exact h id e he

theorem Bounded.addEpsilon (h : a.Bounded) (hs : source < a.stateCount)
    (ht : target < a.stateCount) : (a.addEpsilon source target priority).Bounded :=
  h.addEdge hs ht

theorem Bounded.attach (h : a.Bounded) (hw : a.stateCount < 2 ^ 32)
    (hs : source < a.stateCount) : (a.attach source).Bounded :=
  h.addState.addEpsilon (by simp; omega) (by simp [addState_fst hw])

end PatternAutomata.Automaton
