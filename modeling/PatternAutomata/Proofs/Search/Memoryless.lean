import Mathlib.Data.Set.Card
import Mathlib.Logic.Relation
import PatternAutomata.Proofs.Automaton.Edges
import PatternAutomata.Proofs.Search.Guidance

/-!
# Searching without marks

Plain backtracking tries the edges of a state one after the other and remembers nothing. It comes to
an end where the edges that consume nothing form no circle. If moreover none of them leads where
an edge of the same state that comes before it leads already, what is marked while a path is
followed never lies ahead of it, and the search finds what plain backtracking finds.

## Main definitions

* `Automaton.Slips` — an edge that consumes nothing leads from one state to another.
* `Automaton.Acyclic`, `Automaton.Forks` — no such edges lead round, none leads where one before it
  leads.
* `Automaton.backtrack` — plain backtracking.

## Main statement

* `Automaton.exec_eq_backtrack` — a search finds what plain backtracking finds.
-/
namespace PatternAutomata

open Relation

theorem Path.visits_injective {p q : Path} (h : p.visits = q.visits) : p = q := by
  obtain ⟨last, earlier⟩ := p
  obtain ⟨last', earlier'⟩ := q
  obtain ⟨rfl, rfl⟩ := List.cons.inj (List.reverse_inj.1 h)
  rfl

namespace Automaton

/-- An edge that consumes nothing, with a guard or not, leads from state `id` to state `id'`. -/
def Slips (a : Automaton) (id id' : Nat) : Prop :=
  ∃ e ∈ a.edgesOf id, e.label.isEpsilon = true ∧ e.target = id'

/-- The edges that consume nothing do not lead round in circles. -/
def Acyclic (a : Automaton) : Prop :=
  ∀ id, ¬TransGen a.Slips id id

/-- No edge that consumes nothing leads to a state to which an edge before it that consumes nothing
leads, at once or further on. -/
def Forks (a : Automaton) : Prop :=
  ∀ id, (a.edgesOf id).Pairwise fun e f =>
    e.label.isEpsilon = true → f.label.isEpsilon = true → ¬ReflTransGen a.Slips e.target f.target

/-- How many states can be reached from state `id` without consuming. -/
noncomputable def reach (a : Automaton) (id : Nat) : Nat :=
  {id' | TransGen a.Slips id id'}.ncard

variable {a : Automaton} {text : String} {start : Nat}

theorem finite_slips (a : Automaton) (id : Nat) : {id' | TransGen a.Slips id id'}.Finite := by
  refine (List.finite_toSet a.mentionedIds).subset fun id' h => ?_
  obtain ⟨_, -, e, he, -, rfl⟩ := TransGen.tail'_iff.1 h
  exact target_mem_mentionedIds he

theorem reach_lt (hacyclic : a.Acyclic) {id id' : Nat} (h : a.Slips id id') :
    a.reach id' < a.reach id := by
  refine Set.ncard_lt_ncard ⟨fun x hx => .head h hx, fun hsub => ?_⟩ (a.finite_slips id)
  exact hacyclic id' (hsub (TransGen.single h))

theorem slips_of_next? {v w : Visit} {e : Edge} (he : e ∈ a.edgesOf v.state)
    (hi : e.label.isEpsilon = true) (hw : e.next? a.flags text v = some w) :
    a.Slips v.state w.state :=
  ⟨e, he, hi, (Edge.next?_eq_some_iff.1 hw).1.symm⟩

/-- What is left of the text gets less along an edge, or as much is left and fewer states can be
reached without consuming. -/
theorem measure_lt_of_next? (hacyclic : a.Acyclic) {v w : Visit} {e : Edge}
    (he : e ∈ a.edgesOf v.state) (hw : e.next? a.flags text v = some w) :
    Prod.Lex (· < ·) (· < ·) (text.utf8ByteSize - w.offset, a.reach w.state)
      (text.utf8ByteSize - v.offset, a.reach v.state) := by
  cases hi : e.label.isEpsilon with
  | true =>
    rw [Edge.offset_eq_of_next? hi hw]
    exact .right _ (reach_lt hacyclic (slips_of_next? he hi hw))
  | false =>
    have := Edge.offset_lt_of_next? hi hw
    exact .left _ _ (by omega)

/-- Plain backtracking: the path `p` if its last state is final, and else what is found behind the
first edge behind which something is found. -/
def backtrack (a : Automaton) (hacyclic : a.Acyclic) (text : String) (p : Path) : Option Path :=
  if a.isFinal p.last.state then some p
  else (a.edgesOf p.last.state).attach.findSome? fun ⟨e, _⟩ =>
    (e.next? a.flags text p.last).attach.bind fun ⟨w, _⟩ =>
      a.backtrack hacyclic text (p.extend w)
termination_by (text.utf8ByteSize - p.last.offset, a.reach p.last.state)
decreasing_by exact measure_lt_of_next? hacyclic ‹_› ‹_›

theorem backtrack_of_final (hacyclic : a.Acyclic) {p : Path}
    (hf : a.isFinal p.last.state = true) : a.backtrack hacyclic text p = some p := by
  rw [backtrack, if_pos hf]

theorem backtrack_eq (hacyclic : a.Acyclic) {p : Path} (hf : a.isFinal p.last.state = false) :
    a.backtrack hacyclic text p = (a.edgesOf p.last.state).findSome? fun e =>
      (e.next? a.flags text p.last).bind fun w => a.backtrack hacyclic text (p.extend w) := by
  rw [backtrack, if_neg (by simp [hf])]
  simp

/-- What `backtrack` finds nothing behind accepts nothing. -/
theorem not_accepts_of_backtrack (hacyclic : a.Acyclic) {p : Path}
    (h : a.backtrack hacyclic text p = none) : ¬a.Accepts text p.last := by
  rintro ⟨run, hrun⟩
  induction run generalizing p with
  | nil =>
    cases hrun with
    | final hf => rw [backtrack_of_final hacyclic hf] at h; cases h
  | cons w run ih =>
    cases hf : a.isFinal p.last.state with
    | true => rw [backtrack_of_final hacyclic hf] at h; cases h
    | false =>
      obtain ⟨e, he, hw⟩ | ⟨⟨e, he, hw⟩, hrun⟩ := hrun
      rw [backtrack_eq hacyclic hf] at h
      have hnone := List.findSome?_eq_none_iff.1 h e he
      rw [hw, Option.bind_some] at hnone
      exact ih hnone hrun

/-- What is marked when `v` is reached lies before `v` in the text, or at the same place but not
ahead of `v`. -/
def Behind (a : Automaton) (seen : Set Visit) (v : Visit) : Prop :=
  ∀ u ∈ seen, v.offset ≤ u.offset → u.offset = v.offset ∧ ¬TransGen a.Slips v.state u.state

theorem behind_start (hacyclic : a.Acyclic) (v : Visit) : a.Behind {v} v := by
  rintro u rfl -
  exact ⟨rfl, hacyclic u.state⟩

section Step

variable {seen : Set Visit} {v w : Visit} {e : Edge} {before after : List Edge}

theorem Behind.notMem (hb : a.Behind seen v) (he : e ∈ a.edgesOf v.state)
    (hi : e.label.isEpsilon = true) (hw : e.next? a.flags text v = some w) : w ∉ seen := fun hm =>
  (hb w hm (Edge.offset_eq_of_next? hi hw).ge).2 (.single (slips_of_next? he hi hw))

/-- The edges after the one taken lead elsewhere. -/
theorem not_reaches_of_forks (hforks : a.Forks) (hsplit : a.edgesOf v.state = before ++ e :: after)
    (hi : e.label.isEpsilon = true) (hw : e.next? a.flags text v = some w) {u : Visit}
    (hu : u ∈ marks a.flags text after v) : ¬ReflTransGen a.Slips w.state u.state := by
  obtain ⟨f, hf, hfi, hnext⟩ := hu
  have hpair := hforks v.state
  rw [hsplit] at hpair
  have hne := (List.pairwise_cons.1 (List.pairwise_append.1 hpair).2.1).1 f hf hi hfi
  rwa [(Edge.next?_eq_some_iff.1 hw).1, (Edge.next?_eq_some_iff.1 hnext).1]

/-- Marks stay behind when a step is made: one that consumes nothing leaves behind what the edges
after it lead to, and one that consumes leaves everything behind. -/
theorem Behind.step (hacyclic : a.Acyclic) (hforks : a.Forks) (hb : a.Behind seen v)
    (hsplit : a.edgesOf v.state = before ++ e :: after) (hw : e.next? a.flags text v = some w) :
    a.Behind (seen ∪ marks a.flags text (e :: after) v) w := by
  have he : e ∈ a.edgesOf v.state := hsplit ▸ List.mem_append_right _ List.mem_cons_self
  intro u hu hle
  cases hi : e.label.isEpsilon with
  | false =>
    have hlt := (Edge.offset_lt_of_next? hi hw).1
    rcases hu with hu | ⟨f, -, hfi, hnext⟩
    · have := (hb u hu (by omega)).1
      omega
    · have := Edge.offset_eq_of_next? hfi hnext
      omega
  | true =>
    have hoffset := Edge.offset_eq_of_next? hi hw
    have hslips := slips_of_next? he hi hw
    rcases hu with hu | ⟨f, hf, hfi, hnext⟩
    · obtain ⟨heq, hahead⟩ := hb u hu (hoffset ▸ hle)
      exact ⟨heq.trans hoffset.symm, fun h => hahead (.head hslips h)⟩
    · refine ⟨(Edge.offset_eq_of_next? hfi hnext).trans hoffset.symm, fun h => ?_⟩
      rcases List.mem_cons.1 hf with rfl | hf
      · obtain rfl := Option.some.inj (hw.symm.trans hnext)
        exact hacyclic _ h
      · exact not_reaches_of_forks hforks hsplit hi hw ⟨f, hf, hfi, hnext⟩ h.to_reflTransGen

end Step

/-- The path that plain backtracking finds is guided: it never enters what is marked, and nothing
accepts behind the edges that it has passed over. -/
theorem guided_of_backtrack (hacyclic : a.Acyclic) (hforks : a.Forks) {seen : Set Visit}
    {p q : Path} (hb : a.Behind seen p.last) (h : a.backtrack hacyclic text p = some q) :
    ∃ run, q.visits = p.visits ++ run ∧ a.Guided text seen p.last run := by
  cases hf : a.isFinal p.last.state with
  | true =>
    rw [backtrack_of_final hacyclic hf] at h
    obtain rfl := Option.some.inj h
    exact ⟨[], (List.append_nil _).symm, .final hf⟩
  | false =>
    rw [backtrack_eq hacyclic hf] at h
    obtain ⟨before, e, after, hsplit, hfound, hbefore⟩ := List.findSome?_eq_some_iff.1 h
    obtain ⟨w, hw, hfound⟩ := Option.bind_eq_some_iff.1 hfound
    have he : e ∈ a.edgesOf p.last.state := hsplit ▸ List.mem_append_right _ List.mem_cons_self
    obtain ⟨run, hvisits, hrun⟩ := guided_of_backtrack hacyclic hforks
      (p := p.extend w) (hb.step hacyclic hforks hsplit hw) hfound
    refine ⟨w :: run, by simp [hvisits], .step hf hsplit hw (fun hi => ?_) (fun f hfm u hu => ?_)
      hrun⟩
    · exact ⟨hb.notMem he hi hw, fun hm => not_reaches_of_forks hforks hsplit hi hw hm .refl⟩
    · have hnone := hbefore f hfm
      rw [hu, Option.bind_some] at hnone
      exact .inr fun hacc => not_accepts_of_backtrack hacyclic hnone hacc.accepts
termination_by (text.utf8ByteSize - p.last.offset, a.reach p.last.state)
decreasing_by exact measure_lt_of_next? hacyclic he hw

/-- Where the edges that consume nothing form no circle, and none of them leads where one before it
leads, a search without limits gives the very path that plain backtracking finds, and rejects where
that finds nothing. -/
theorem exec_eq_backtrack (hpos : 0 < a.stateCount) (hd : a.danglingIds = [])
    (hacyclic : a.Acyclic) (hforks : a.Forks) (text : String) (start : Nat) :
    Matcher.exec ⟨a, {}⟩ text start = .ok (a.backtrack hacyclic text ⟨⟨0, start⟩, []⟩) := by
  have hc := closed_of_danglingIds hpos hd
  cases h : a.backtrack hacyclic text ⟨⟨0, start⟩, []⟩ with
  | none =>
    obtain ⟨result, hexec, -, hsome⟩ := exec_accepting text hc start
    cases result with
    | none => exact hexec
    | some p =>
      obtain ⟨run, -, hrun⟩ := hsome p rfl
      exact absurd ⟨run, hrun⟩ (not_accepts_of_backtrack hacyclic h)
  | some q =>
    obtain ⟨run, hvisits, hrun⟩ :=
      guided_of_backtrack hacyclic hforks (behind_start hacyclic ⟨0, start⟩) h
    obtain ⟨p, hexec, hp⟩ := exec_of_guided hc hrun
    rw [hexec, Path.visits_injective (hp.trans hvisits.symm)]

/-- The edges that consume nothing lead to states with a higher id, and those of one state are
listed with the highest id first. -/
def Cascades (a : Automaton) : Prop :=
  ∀ id < a.stateCount, (∀ e ∈ a.edgesOf id, e.label.isEpsilon = true → id < e.target) ∧
    (a.edgesOf id).Pairwise fun e f =>
      e.label.isEpsilon = true → f.label.isEpsilon = true → f.target < e.target

theorem Cascades.lt_of_slips (h : a.Cascades) {id id' : Nat} (hs : a.Slips id id') : id < id' := by
  obtain ⟨e, he, hi, rfl⟩ := hs
  by_cases hid : id < a.stateCount
  · exact (h id hid).1 e he hi
  · rw [edgesOf_eq_nil (Nat.not_lt.1 hid)] at he
    cases he

theorem Cascades.lt_of_transGen (h : a.Cascades) {id id' : Nat} (hs : TransGen a.Slips id id') :
    id < id' := by
  induction hs with
  | single hs => exact h.lt_of_slips hs
  | tail _ hs ih => exact ih.trans (h.lt_of_slips hs)

theorem Cascades.acyclic (h : a.Cascades) : a.Acyclic := fun id hcircle =>
  Nat.lt_irrefl id (h.lt_of_transGen hcircle)

theorem Cascades.forks (h : a.Cascades) : a.Forks := fun id => by
  by_cases hid : id < a.stateCount
  · refine (h id hid).2.imp fun hlt he hf hreach => ?_
    have hlt := hlt he hf
    rcases reflTransGen_iff_eq_or_transGen.1 hreach with heq | hreach
    · omega
    · have := h.lt_of_transGen hreach
      omega
  · rw [edgesOf_eq_nil (Nat.not_lt.1 hid)]
    exact .nil

/-- An automaton in which two ways lead to state 4 without consuming, and which goes round while it
consumes letters. -/
def delta : Automaton where
  states := #[[.free 3, .free 1], [⟨.char 'é', 0⟩, .free 4], [], [⟨.epsilon (some .start), 4⟩],
    [⟨.epsilon (some .finish), 5⟩, ⟨.range 'a' 'z', 0⟩], []]
  finals := [5]

theorem exec_eq_backtrack_delta :
    0 < delta.stateCount ∧ delta.danglingIds = [] ∧ ∃ (hacyclic : delta.Acyclic) (_ : delta.Forks),
      delta.backtrack hacyclic "éa" ⟨⟨0, 0⟩, []⟩ =
        some ⟨⟨5, 3⟩, [⟨4, 3⟩, ⟨1, 3⟩, ⟨0, 3⟩, ⟨4, 2⟩, ⟨1, 2⟩, ⟨0, 2⟩, ⟨1, 0⟩, ⟨0, 0⟩]⟩ := by
  have hpos : 0 < delta.stateCount := by decide
  have hd : delta.danglingIds = [] := by decide
  have hcascades : delta.Cascades := by unfold Cascades; decide
  have heq := exec_eq_backtrack hpos hd hcascades.acyclic hcascades.forks "éa" 0
  refine ⟨hpos, hd, hcascades.acyclic, hcascades.forks, Except.ok.inj (heq.symm.trans ?_)⟩
  exact Matcher.exec_of_execWithin (n := 40) (by decide +kernel)

end Automaton

end PatternAutomata
