import Std.Data.TreeSet.Lemmas

/-!
# Visits already made

For every state the offsets at which a search has entered it without consuming. The states are
numbered from 0, and an id beyond them is never recorded.
-/
namespace PatternAutomata

structure Visited where
  offsets : Array (Std.TreeSet Nat)
  deriving Repr, Inhabited

namespace Visited

/-- No visits, for an automaton with `count` states. -/
def empty (count : Nat) : Visited :=
  ⟨Array.replicate count ∅⟩

/-- The number of states. -/
def size (v : Visited) : Nat :=
  v.offsets.size

def contains (v : Visited) (id : Nat) (offset : Nat) : Bool :=
  (v.offsets[id]?.getD ∅).contains offset

def insert (v : Visited) (id : Nat) (offset : Nat) : Visited :=
  ⟨v.offsets.modify id (·.insert offset)⟩

@[simp] theorem size_empty (count : Nat) : (empty count).size = count := by
  simp [empty, size]

@[simp] theorem size_insert (v : Visited) (id : Nat) (offset : Nat) :
    (v.insert id offset).size = v.size := by
  simp [insert, size]

@[simp] theorem contains_empty (count : Nat) (id : Nat) (offset : Nat) :
    (empty count).contains id offset = false := by
  simp only [contains, empty, Array.getElem?_replicate]
  split <;> rfl

theorem contains_insert {v : Visited} {id : Nat} (h : id < v.size) (offset : Nat)
    (id' : Nat) (offset' : Nat) :
    (v.insert id offset).contains id' offset' =
      (v.contains id' offset' || (id' == id && offset' == offset)) := by
  by_cases he : id' = id
  · subst he
    have hs : id' < v.offsets.size := h
    have hb : (compare offset offset' == .eq) = (offset' == offset) := by
      rw [Bool.eq_iff_iff, beq_iff_eq, beq_iff_eq, Nat.compare_eq_eq, eq_comm]
    simp [contains, insert, Array.getElem?_modify, Array.getElem?_eq_getElem hs,
      Std.TreeSet.contains_insert, hb, Bool.or_comm]
  · simp [contains, insert, Array.getElem?_modify, he, Ne.symm he]

end Visited

end PatternAutomata
