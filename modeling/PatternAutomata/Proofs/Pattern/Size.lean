import PatternAutomata.Proofs.Pattern.Combinators
import PatternAutomata.Proofs.Pattern.Induction
import PatternAutomata.Proofs.Pattern.Matching

/-!
# How many states a pattern takes

A fragment never takes states away, and adds few of them: a node of a pattern takes four states at
most, unless it is under a counted repetition, which stops when the automaton has become too large.

## Main statement

* `Pattern.grows_fragment` — the states that a fragment adds.
-/
namespace PatternAutomata

namespace Fragment

/-- The fragment takes no states away, and adds `k` states at most, those not counted by which the
automaton is smaller than the limit for counted repetitions. -/
def Grows (part : Fragment) (k : Nat) : Prop :=
  ∀ ⦃entry : Nat⦄ ⦃a : Automaton⦄ ⦃exit : Nat⦄ ⦃a' : Automaton⦄,
    part entry a = .ok (exit, a') →
      a.stateCount ≤ a'.stateCount ∧ a'.stateCount ≤ max a.stateCount maxStates + k

variable {part rest : Fragment} {k k' : Nat}

theorem Grows.mono (h : part.Grows k) (hk : k ≤ k') : part.Grows k' := fun _ _ _ _ heq => by
  have := h heq
  omega

theorem Grows.andThen (h : part.Grows k) (h' : rest.Grows k') :
    (part.andThen rest).Grows (k + k') := fun entry a exit a' heq => by
  obtain ⟨mid, a₁, h₁, h₂⟩ := andThen_eq_ok heq
  have := h h₁
  have := h' h₂
  omega

theorem grows_edge (label : Label) : (edge label).Grows 1 := fun entry a exit a' heq => by
  obtain ⟨-, rfl⟩ := edge_eq_ok heq
  simp

theorem grows_set (negated : Bool) (items : List SetItem) : (set negated items).Grows 1 :=
  fun entry a exit a' heq => by
    obtain ⟨s, -, h⟩ := set_eq_ok heq
    exact grows_edge _ h

theorem grows_sequence_nil : (sequence []).Grows 0 := fun entry a exit a' heq => by
  obtain ⟨-, rfl⟩ := sequence_nil_eq_ok heq
  omega

theorem grows_copies (h : part.Grows k) (n : Nat) : (copies part n).Grows 0 := by
  induction n with
  | zero => exact grows_sequence_nil
  | succ n ih =>
    intro entry a exit a' heq
    obtain ⟨mid, a₁, h₁, hle, h₂⟩ := copies_succ_eq_ok heq
    have := h h₁
    have := ih h₂
    omega

theorem grows_block (h : part.Grows k) (shape : Shape) (greedy : Bool) :
    (block part shape greedy).Grows (k + 4) := fun entry a exit a' heq => by
  obtain ⟨outer, a₁, h₁, -, rfl⟩ := block_eq_ok heq
  have h₁ := h h₁
  simp only [Automaton.stateCount_attach, Laid.stateCount_addExtras] at h₁ ⊢
  omega

theorem grows_capture (h : part.Grows k) (index : Nat) : (capture index part).Grows (k + 2) :=
  fun entry a exit a' heq => by
    obtain ⟨last, a₁, h₁, -, rfl⟩ := capture_eq_ok heq
    have h₁ := h h₁
    simp only [Automaton.stateCount_addSpan, Automaton.stateCount_attach] at h₁ ⊢
    omega

theorem grows_counted (h : part.Grows k) (min : Nat) (max : Option Nat) (greedy : Bool) :
    (counted part min max greedy).Grows (k + 4) := by
  intro entry a exit a' heq
  cases max with
  | none =>
    have := ((grows_copies h min).andThen (grows_block h ⟨true, true⟩ greedy)).mono
      (Nat.zero_add _).le
    exact this heq
  | some max =>
    have := ((grows_copies h min).andThen
      (grows_copies (grows_block h ⟨true, false⟩ greedy) (max - min))).mono (Nat.zero_le (k + 4))
    exact this (counted_some_eq_ok heq).2

theorem grows_repeated (h : part.Grows k) (times : Repetition) (greedy : Bool) :
    (repeated part times greedy).Grows (k + 4) := by
  cases times with
  | optional | star | plus => exact grows_block h _ _
  | counted min max => exact grows_counted h min max greedy

end Fragment

namespace Pattern

theorem nodes_pos (p : Pattern) : 0 < p.nodes := by
  cases p <;> simp [nodes]

theorem grows_fragments {ps : List Pattern} (h : ∀ p ∈ ps, p.fragment.Grows (4 * p.nodes - 1)) :
    (Fragment.sequence (fragments ps)).Grows (4 * nodesAll ps) := by
  induction ps with
  | nil => exact Fragment.grows_sequence_nil
  | cons p ps ih =>
    obtain ⟨hp, hps⟩ := List.forall_mem_cons.1 h
    exact (hp.andThen (ih hps)).mono (by rw [nodesAll]; omega)

/-- The parts of an alternation take one state each beside their own. -/
theorem grows_fan {ps : List Pattern} (h : ∀ p ∈ ps, p.fragment.Grows (4 * p.nodes - 1))
    {entry : Nat} {a : Automaton} {exits : List Nat} {a' : Automaton}
    (heq : Fragment.fan (fragments ps) entry a = .ok (exits, a')) :
    a.stateCount ≤ a'.stateCount ∧
      a'.stateCount ≤ max a.stateCount Fragment.maxStates + 4 * nodesAll ps := by
  induction ps generalizing a exits with
  | nil =>
    obtain ⟨-, rfl⟩ := Fragment.fan_nil_eq_ok heq
    simp
    omega
  | cons p ps ih =>
    obtain ⟨hp, hps⟩ := List.forall_mem_cons.1 h
    obtain ⟨first, a₁, others, h₁, h₂, -⟩ := Fragment.fan_cons_eq_ok heq
    have h₁ := hp h₁
    have h₂ := ih hps h₂
    have hpos := p.nodes_pos
    simp only [Automaton.stateCount_attach, nodesAll] at h₁ h₂ ⊢
    omega

/-- A fragment adds less than four states for each node of its pattern. -/
theorem grows_fragment (p : Pattern) : p.fragment.Grows (4 * p.nodes - 1) := by
  induction p using induct with
  | alternation branches ih =>
    rw [fragment]
    intro entry a exit a' heq
    obtain ⟨-, exits, a₁, h₁, -, rfl⟩ := Fragment.alternation_eq_ok heq
    have h₁ := grows_fan ih h₁
    simp only [stateCount_joinAt, Automaton.stateCount_addState, nodes]
    omega
  | sequence items ih =>
    rw [fragment]
    exact (grows_fragments ih).mono (by rw [nodes]; omega)
  | repeated body times greedy ih =>
    rw [fragment]
    have := body.nodes_pos
    exact (Fragment.grows_repeated ih times greedy).mono (by rw [nodes]; omega)
  | group capture body ih =>
    have := body.nodes_pos
    cases capture with
    | none =>
      rw [fragment]
      exact ih.mono (by rw [nodes]; omega)
    | some index =>
      rw [fragment]
      exact (Fragment.grows_capture ih index).mono (by rw [nodes]; omega)
  | anchor | char | charClass =>
    rw [fragment]
    exact (Fragment.grows_edge _).mono (by rw [nodes]; omega)
  | set negated items =>
    rw [fragment]
    exact (Fragment.grows_set negated items).mono (by rw [nodes]; omega)

end Pattern

end PatternAutomata
