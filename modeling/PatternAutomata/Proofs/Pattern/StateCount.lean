import PatternAutomata.Proofs.Pattern.Trim

/-!
# The states of a built automaton

A pattern adds the same number of states wherever it is entered. Counted repetitions multiply that
number without end, but an automaton that was built has passed the test behind every copy, so it is
larger than the limit by no more than its plain nodes take. A 32-bit word is enough for its ids.

## Main definitions

* `Pattern.size` — the number of states that a pattern adds.

## Main statements

* `Pattern.adds_fragment` — the states of a fragment, counted exactly.
* `Pattern.stateCount_of_build` — the bound on the states of an automaton, and its ids.
-/
namespace PatternAutomata

/-- The states of a repetition whose body has `n` states. -/
def Repetition.size (n : Nat) : Repetition → Nat
  | optional | star | plus => n + 4
  | counted min none => min * n + (n + 4)
  | counted min (some max) => min * n + (max - min) * (n + 4)

namespace Pattern

mutual

/-- The number of states that a pattern adds to an automaton. -/
def size : Pattern → Nat
  | alternation branches => sizeAny branches + 1
  | sequence items => sizeAll items
  | repeated body times _ => times.size body.size
  | group none body => body.size
  | group (some _) body => body.size + 2
  | anchor _ | char _ | charClass _ | set _ _ => 1

/-- The states of branches, each with the one where it is entered. -/
def sizeAny : List Pattern → Nat
  | [] => 0
  | p :: rest => p.size + 1 + sizeAny rest

def sizeAll : List Pattern → Nat
  | [] => 0
  | p :: rest => p.size + sizeAll rest

end

end Pattern

namespace Fragment

/-- The fragment adds exactly `k` states, whatever the automaton is. -/
def Adds (part : Fragment) (k : Nat) : Prop :=
  ∀ ⦃entry : Nat⦄ ⦃a : Automaton⦄ ⦃exit : Nat⦄ ⦃a' : Automaton⦄,
    part entry a = .ok (exit, a') → a'.stateCount = a.stateCount + k

variable {part rest : Fragment} {k k' : Nat}

theorem Adds.andThen (h : part.Adds k) (h' : rest.Adds k') :
    (part.andThen rest).Adds (k + k') := fun entry a exit a' heq => by
  obtain ⟨mid, a₁, h₁, h₂⟩ := andThen_eq_ok heq
  rw [h' h₂, h h₁, Nat.add_assoc]

theorem adds_edge (label : Label) : (edge label).Adds 1 := fun entry a exit a' heq => by
  obtain ⟨-, rfl⟩ := edge_eq_ok heq
  simp

theorem adds_set (negated : Bool) (items : List SetItem) : (set negated items).Adds 1 :=
  fun entry a exit a' heq => by
    obtain ⟨s, -, h⟩ := set_eq_ok heq
    exact adds_edge _ h

theorem adds_sequence_nil : (sequence []).Adds 0 := fun entry a exit a' heq => by
  obtain ⟨-, rfl⟩ := sequence_nil_eq_ok heq
  rfl

theorem adds_copies (h : part.Adds k) (n : Nat) : (copies part n).Adds (n * k) := by
  induction n with
  | zero =>
    rw [Nat.zero_mul]
    exact adds_sequence_nil
  | succ n ih =>
    intro entry a exit a' heq
    obtain ⟨mid, a₁, h₁, -, h₂⟩ := copies_succ_eq_ok heq
    rw [ih h₂, h h₁, Nat.succ_mul]
    omega

theorem adds_block (h : part.Adds k) (shape : Shape) (greedy : Bool) :
    (block part shape greedy).Adds (k + 4) := fun entry a exit a' heq => by
  obtain ⟨outer, a₁, h₁, -, rfl⟩ := block_eq_ok heq
  have h₁ := h h₁
  simp only [Automaton.stateCount_attach, Laid.stateCount_addExtras] at h₁ ⊢
  omega

theorem adds_capture (h : part.Adds k) (index : Nat) : (capture index part).Adds (k + 2) :=
  fun entry a exit a' heq => by
    obtain ⟨last, a₁, h₁, -, rfl⟩ := capture_eq_ok heq
    have h₁ := h h₁
    simp only [Automaton.stateCount_addSpan, Automaton.stateCount_attach] at h₁ ⊢
    omega

theorem adds_repeated (h : part.Adds k) (times : Repetition) (greedy : Bool) :
    (repeated part times greedy).Adds (times.size k) := by
  rcases times with _ | _ | _ | ⟨min, _ | max⟩
  · exact adds_block h _ greedy
  · exact adds_block h _ greedy
  · exact adds_block h _ greedy
  · exact (adds_copies h min).andThen (adds_block h ⟨true, true⟩ greedy)
  · intro entry a exit a' heq
    exact (adds_copies h min).andThen
      (adds_copies (adds_block h ⟨true, false⟩ greedy) (max - min)) (counted_some_eq_ok heq).2

end Fragment

namespace Pattern

variable {p : Pattern} {ps : List Pattern} {flags : Flags} {a : Automaton}

theorem adds_fragments (h : ∀ p ∈ ps, p.fragment.Adds p.size) :
    (Fragment.sequence (fragments ps)).Adds (sizeAll ps) := by
  induction ps with
  | nil => exact Fragment.adds_sequence_nil
  | cons p ps ih =>
    obtain ⟨hp, hps⟩ := List.forall_mem_cons.1 h
    exact hp.andThen (ih hps)

theorem adds_fan (h : ∀ p ∈ ps, p.fragment.Adds p.size) {entry : Nat} {a : Automaton}
    {exits : List Nat} {a' : Automaton}
    (heq : Fragment.fan (fragments ps) entry a = .ok (exits, a')) :
    a'.stateCount = a.stateCount + sizeAny ps := by
  induction ps generalizing a exits with
  | nil =>
    obtain ⟨-, rfl⟩ := Fragment.fan_nil_eq_ok heq
    rfl
  | cons p ps ih =>
    obtain ⟨hp, hps⟩ := List.forall_mem_cons.1 h
    obtain ⟨first, a₁, others, h₁, h₂, -⟩ := Fragment.fan_cons_eq_ok heq
    have h₁ := hp h₁
    have h₂ := ih hps h₂
    simp only [Automaton.stateCount_attach, sizeAny] at h₁ h₂ ⊢
    omega

/-- The states of a fragment do not depend on where it is entered, nor on how large the automaton
is by then. -/
theorem adds_fragment (p : Pattern) : p.fragment.Adds p.size := by
  induction p using induct with
  | alternation branches ih =>
    rw [fragment]
    intro entry a exit a' heq
    obtain ⟨-, exits, a₁, h₁, -, rfl⟩ := Fragment.alternation_eq_ok heq
    have h₁ := adds_fan ih h₁
    simp only [stateCount_joinAt, Automaton.stateCount_addState, size]
    omega
  | sequence items ih =>
    rw [fragment]
    exact adds_fragments ih
  | repeated body times greedy ih =>
    rw [fragment]
    exact Fragment.adds_repeated ih times greedy
  | group capture body ih =>
    cases capture with
    | none =>
      rw [fragment]
      exact ih
    | some index =>
      rw [fragment]
      exact Fragment.adds_capture ih index
  | anchor | char | charClass =>
    rw [fragment]
    exact Fragment.adds_edge _
  | set negated items =>
    rw [fragment]
    exact Fragment.adds_set negated items

theorem stateCount_eq_of_build (hb : p.build flags = .ok a) : a.stateCount = 1 + p.size := by
  obtain ⟨exit, a', hbuild, rfl⟩ := fragment_of_build hb
  exact p.adds_fragment hbuild

theorem stateCount_le_of_build (hb : p.build flags = .ok a) :
    a.stateCount ≤ 2 ^ 20 + 4 * p.nodes := by
  obtain ⟨exit, a', hbuild, rfl⟩ := fragment_of_build hb
  have hle : a'.stateCount ≤ max 1 Fragment.maxStates + (4 * p.nodes - 1) :=
    (p.grows_fragment hbuild).2
  rw [Fragment.maxStates] at hle
  change a'.stateCount ≤ _
  omega

/-- However counted repetitions are nested, a built automaton has no more states than the limit for
these and four for each node of its pattern. So the ids of a pattern of fewer than `2 ^ 29` nodes
are the numbers of its states, and whatever it refers to is one of them. -/
theorem stateCount_of_build (hb : p.build flags = .ok a) :
    a.stateCount ≤ 2 ^ 20 + 4 * p.nodes ∧
      (p.nodes < 2 ^ 29 → (∀ index < a.stateCount, stateId index = index) ∧
        ∀ id ∈ a.mentionedIds, id < a.stateCount) := by
  refine ⟨stateCount_le_of_build hb, fun hn => ⟨fun index hindex => ?_, fun id hid => ?_⟩⟩
  · have hle := stateCount_le_of_build hb
    exact Nat.mod_eq_of_lt (by omega)
  · obtain ⟨r, hr, hregion, -, hgroups⟩ := renders_of_build hn hb
    obtain ⟨-, final, hfinals⟩ := finals_of_build hn hb
    exact hregion.mentionedIds_lt hfinals
      (fun g hg s hs =>
        Automaton.mem_spans_of_record (index_mem_of_build hr hb) hgroups hg hs) id hid

/-- Copies of copies of copies, `(?:(?:a{3}b){2,}|){4,5}`, with more than four states for each
node. -/
def nestedCounts : Pattern :=
  .repeated (.alternation [
    .repeated (.sequence [.repeated (.char 'a') (.counted 3 (some 3)) true, .char 'b'])
      (.counted 2 none) true, .sequence []]) (.counted 4 (some 5)) true

theorem stateCount_of_build_nestedCounts :
    nestedCounts.nodes < 2 ^ 29 ∧ ∃ a, nestedCounts.build {} = .ok a ∧ a.stateCount = 100 ∧
      a.stateCount ≤ 2 ^ 20 + 4 * nestedCounts.nodes ∧
      ∀ id ∈ a.mentionedIds, id < a.stateCount := by
  obtain ⟨a, hb⟩ := exists_of_isOk (x := nestedCounts.build {}) (by decide +kernel)
  have hn : nestedCounts.nodes < 2 ^ 29 := by decide
  have hcount : a.stateCount = 1 + nestedCounts.size := stateCount_eq_of_build hb
  obtain ⟨hle, hids⟩ := stateCount_of_build hb
  exact ⟨hn, a, hb, hcount, hle, (hids hn).2⟩

end Pattern

end PatternAutomata
