import PatternAutomata.Proofs.Region.Construction
import PatternAutomata.Proofs.Steps

/-!
# What the combinators build

Each combinator of fragments is an equation, with the states that it adds named as their regions
name them, and an inversion: what it has done where it gave a result, the tests that it passed
included. What is proved of fragments cites these, and opens no combinator.

## Main definition

* `Fragment.andThen` — one fragment, then another one from its exit.

## Main statements

* `Fragment.block_eq_ok`, `Fragment.capture_eq_ok`, `Fragment.copies_succ_eq_ok`,
  `Fragment.counted_some_eq_ok`, `Fragment.alternation_eq_ok` — the inversions.
-/
namespace PatternAutomata

namespace Fragment

section Equations

variable (part : Fragment) (parts : List Fragment) (entry : Nat) (a : Automaton)

theorem edge_eq (label : Label) : edge label entry a =
    .ok (a.addState.1, a.addState.2.addEdge entry label a.addState.1 .last) := rfl

theorem capture_eq (index : Nat) : capture index part entry a =
    part a.addState.1 (a.attach entry) >>= fun x =>
      .ok (x.2.addState.1, (x.2.attach x.1).addSpan index ⟨a.addState.1, x.2.addState.1⟩) := rfl

theorem block_eq (shape : Shape) (greedy : Bool) : block part shape greedy entry a =
    part (a.attach entry).addState.1 ((a.attach entry).attach a.addState.1) >>= fun x =>
      .ok ((x.2.attach x.1).addState.1,
        Laid.addExtras ((x.2.attach x.1).attach x.2.addState.1)
          ⟨a.addState.1, (a.attach entry).addState.1, x.2.addState.1,
            (x.2.attach x.1).addState.1, shape, greedy⟩) := rfl

theorem fan_cons_eq : fan (part :: parts) entry a =
    part a.addState.1 (a.attach entry) >>= fun x =>
      fan parts entry x.2 >>= fun y => .ok (x.1 :: y.1, y.2) := rfl

theorem alternation_cons_eq : alternation (part :: parts) entry a =
    fan (part :: parts) entry a >>= fun x =>
      .ok (x.2.addState.1, joinAt x.2.addState.1 x.1 x.2.addState.2) := rfl

end Equations

/-- One fragment, then another one from its exit. -/
def andThen (part rest : Fragment) : Fragment := fun entry a => do
  let (exit, a) ← part entry a
  rest exit a

theorem andThen_nil (part : Fragment) : part.andThen (sequence []) = part := by
  funext entry a
  simp only [andThen]
  cases part entry a <;> rfl

section Inversion

variable {part rest : Fragment} {parts : List Fragment} {entry exit : Nat} {a a' : Automaton}
  {exits : List Nat}

theorem andThen_eq_ok (h : part.andThen rest entry a = .ok (exit, a')) :
    ∃ mid a₁, part entry a = .ok (mid, a₁) ∧ rest mid a₁ = .ok (exit, a') := by
  obtain ⟨⟨mid, a₁⟩, h₁, h₂⟩ := exists_of_bind_eq_ok h
  exact ⟨mid, a₁, h₁, h₂⟩

theorem andThen_of_eq_ok {mid : Nat} {a₁ : Automaton} (h₁ : part entry a = .ok (mid, a₁))
    (h₂ : rest mid a₁ = .ok (exit, a')) : part.andThen rest entry a = .ok (exit, a') := by
  rw [andThen, h₁]
  exact h₂

theorem edge_eq_ok {label : Label} (h : edge label entry a = .ok (exit, a')) :
    exit = a.addState.1 ∧ a' = a.addState.2.addEdge entry label a.addState.1 .last := by
  rw [edge_eq] at h
  obtain ⟨rfl, rfl⟩ := Prod.mk.inj (Except.ok.inj h)
  exact ⟨rfl, rfl⟩

theorem set_eq_ok {negated : Bool} {items : List SetItem}
    (h : set negated items entry a = .ok (exit, a')) :
    ∃ s, items.foldlM SetItem.addTo { negated } = .ok s ∧
      edge (.set s) entry a = .ok (exit, a') :=
  exists_of_bind_eq_ok h

theorem sequence_nil_eq_ok (h : sequence [] entry a = .ok (exit, a')) :
    exit = entry ∧ a' = a := by
  obtain ⟨rfl, rfl⟩ := Prod.mk.inj (Except.ok.inj h)
  exact ⟨rfl, rfl⟩

theorem capture_eq_ok {index : Nat} (h : capture index part entry a = .ok (exit, a')) :
    ∃ last a₁, part a.addState.1 (a.attach entry) = .ok (last, a₁) ∧ exit = a₁.addState.1 ∧
      a' = (a₁.attach last).addSpan index ⟨a.addState.1, a₁.addState.1⟩ := by
  rw [capture_eq] at h
  obtain ⟨⟨last, a₁⟩, h₁, h₂⟩ := exists_of_bind_eq_ok h
  obtain ⟨rfl, rfl⟩ := Prod.mk.inj (Except.ok.inj h₂)
  exact ⟨last, a₁, h₁, rfl, rfl⟩

theorem block_eq_ok {shape : Shape} {greedy : Bool}
    (h : block part shape greedy entry a = .ok (exit, a')) :
    ∃ outer a₁, part (a.attach entry).addState.1 ((a.attach entry).attach a.addState.1) =
        .ok (outer, a₁) ∧
      exit = (a₁.attach outer).addState.1 ∧
      a' = Laid.addExtras ((a₁.attach outer).attach a₁.addState.1)
        ⟨a.addState.1, (a.attach entry).addState.1, a₁.addState.1, exit, shape, greedy⟩ := by
  rw [block_eq] at h
  obtain ⟨⟨outer, a₁⟩, h₁, h₂⟩ := exists_of_bind_eq_ok h
  obtain ⟨rfl, rfl⟩ := Prod.mk.inj (Except.ok.inj h₂)
  exact ⟨outer, a₁, h₁, rfl, rfl⟩

theorem copies_succ_eq_ok {n : Nat} (h : copies part (n + 1) entry a = .ok (exit, a')) :
    ∃ mid a₁, part entry a = .ok (mid, a₁) ∧ a₁.stateCount ≤ maxStates ∧
      copies part n mid a₁ = .ok (exit, a') := by
  obtain ⟨⟨mid, a₁⟩, h₁, h₂⟩ := exists_of_bind_eq_ok h
  simp only at h₂
  split at h₂
  case isTrue => cases h₂
  case isFalse hle => exact ⟨mid, a₁, h₁, Nat.le_of_not_lt hle, h₂⟩

/-- Copies that pass the test behind each of them are a sequence. -/
theorem andThen_of_copies_succ {n : Nat} (h : copies part (n + 1) entry a = .ok (exit, a')) :
    part.andThen (copies part n) entry a = .ok (exit, a') := by
  obtain ⟨mid, a₁, h₁, -, h₂⟩ := copies_succ_eq_ok h
  exact andThen_of_eq_ok h₁ h₂

theorem counted_some_eq_ok {min max : Nat} {greedy : Bool}
    (h : counted part min (some max) greedy entry a = .ok (exit, a')) :
    min ≤ max ∧
      (copies part min).andThen (copies (block part ⟨true, false⟩ greedy) (max - min)) entry a =
        .ok (exit, a') := by
  simp only [counted] at h
  split at h
  case isTrue => cases h
  case isFalse hle => exact ⟨Nat.le_of_not_lt hle, h⟩

theorem fan_nil_eq_ok (h : fan [] entry a = .ok (exits, a')) : exits = [] ∧ a' = a := by
  obtain ⟨rfl, rfl⟩ := Prod.mk.inj (Except.ok.inj h)
  exact ⟨rfl, rfl⟩

theorem fan_cons_eq_ok (h : fan (part :: parts) entry a = .ok (exits, a')) :
    ∃ first a₁ others, part a.addState.1 (a.attach entry) = .ok (first, a₁) ∧
      fan parts entry a₁ = .ok (others, a') ∧ exits = first :: others := by
  rw [fan_cons_eq] at h
  obtain ⟨⟨first, a₁⟩, h₁, h₂⟩ := exists_of_bind_eq_ok h
  obtain ⟨⟨others, a₂⟩, h₃, h₄⟩ := exists_of_bind_eq_ok h₂
  obtain ⟨rfl, rfl⟩ := Prod.mk.inj (Except.ok.inj h₄)
  exact ⟨first, a₁, others, h₁, h₃, rfl⟩

theorem alternation_eq_ok (h : alternation parts entry a = .ok (exit, a')) :
    parts ≠ [] ∧ ∃ exits a₁, fan parts entry a = .ok (exits, a₁) ∧ exit = a₁.addState.1 ∧
      a' = joinAt a₁.addState.1 exits a₁.addState.2 := by
  cases parts with
  | nil => cases h
  | cons part parts =>
    rw [alternation_cons_eq] at h
    obtain ⟨⟨exits, a₁⟩, h₁, h₂⟩ := exists_of_bind_eq_ok h
    obtain ⟨rfl, rfl⟩ := Prod.mk.inj (Except.ok.inj h₂)
    exact ⟨List.cons_ne_nil part parts, exits, a₁, h₁, rfl, rfl⟩

end Inversion

end Fragment

end PatternAutomata
