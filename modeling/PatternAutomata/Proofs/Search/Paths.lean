import Mathlib.Data.List.Chain
import PatternAutomata.Proofs.Automaton.Dangling
import PatternAutomata.Proofs.Region.Walk
import PatternAutomata.Proofs.Search.Limits
import PatternAutomata.Proofs.Search.Trail
import PatternAutomata.Proofs.Text.Slice

/-!
# Accepted paths are runs

The path that a search accepts leads from visit to visit along edges of the automaton. Between two
visits that follow each other lies nothing, where the edge does not consume, or one character that
the edge accepts, and put together these pieces are the text that the path matches.

## Main definitions

* `Label.Spans` — what lies between the offsets on both sides of an edge.
* `Automaton.IsRun` — a path leads from state 0 to a final state along the edges.

## Main statement

* `Matcher.exec_isRun` — an accepted path is a run, and its pieces can be read off the text.
-/
namespace PatternAutomata

/-- An edge with this label can be passed from the first offset to the second. -/
inductive Label.Spans (flags : Flags) (text : String) : Label → Nat → Nat → Prop
  | free {i : Nat} : Spans flags text (.epsilon none) i i
  | guarded {guard : Anchor} {i : Nat} :
      guard.holds text i flags.multiline = true → Spans flags text (.epsilon (some guard)) i i
  | consuming {l : Label} {c : Char} {i j : Nat} :
      Text.slice? text i j = some (String.singleton c) → l.accepts c flags.dotAll = true →
      Spans flags text l i j

theorem Label.pass?_eq_some_iff {l : Label} {flags : Flags} {text : String} {i j : Nat} :
    l.pass? flags text i = some j ↔ l.Spans flags text i j := by
  constructor
  · intro h
    cases he : l.isEpsilon with
    | true =>
      obtain rfl := pass?_eq_of_isEpsilon he h
      cases l with
      | epsilon guard =>
        cases guard with
        | none => exact .free
        | some guard => exact .guarded (by simpa [pass?] using h)
      | _ => cases he
    | false =>
      obtain ⟨c, hc, hl, hj⟩ := (pass?_consuming he).1 h
      exact .consuming (Text.slice?_eq_singleton_iff.2 ⟨hc, hj⟩) hl
  · rintro (_ | hguard | ⟨hslice, hl⟩)
    · rfl
    · simp [pass?, hguard]
    · obtain ⟨hc, rfl⟩ := Text.slice?_eq_singleton_iff.1 hslice
      have he : l.isEpsilon = false := by cases l <;> first | rfl | cases hl
      exact (pass?_consuming he).2 ⟨_, hc, hl, rfl⟩

/-- What a label spans is empty or a single character. -/
theorem Label.Spans.exists_slice {l : Label} {flags : Flags} {text : String} {i j : Nat}
    (h : l.Spans flags text i j) (hi : Text.IsBoundary text i) :
    Text.IsBoundary text j ∧ ∃ part, Text.slice? text i j = some part ∧
      (part = "" ∨ ∃ c, part = String.singleton c) := by
  refine ⟨isBoundary_of_pass? hi (pass?_eq_some_iff.2 h), ?_⟩
  cases h with
  | free | guarded => exact ⟨"", Text.slice?_self hi, .inl rfl⟩
  | consuming hslice => exact ⟨_, hslice, .inr ⟨_, rfl⟩⟩

namespace Automaton

variable {a : Automaton} {text : String} {start : Nat}

/-- An edge leads from the first visit to the second. -/
def Joined (a : Automaton) (text : String) (v w : Visit) : Prop :=
  ∃ e ∈ a.edgesOf v.state, e.target = w.state ∧ e.label.Spans a.flags text v.offset w.offset

theorem step_iff_joined {v w : Visit} : a.Step text v w ↔ a.Joined text v w := by
  simp only [Step, Joined, Edge.next?_eq_some_iff, Label.pass?_eq_some_iff, eq_comm (a := w.state)]

/-- The path leads from state 0 at `start` to a final state, along the edges of the automaton. -/
structure IsRun (a : Automaton) (text : String) (start : Nat) (p : Path) : Prop where
  head?_eq : p.visits.head? = some ⟨0, start⟩
  isFinal : ∃ v, p.visits.getLast? = some v ∧ a.isFinal v.state = true
  isChain : p.visits.IsChain (a.Joined text)

theorem Accepting.isChain {v : Visit} {run : List Visit} (h : a.Accepting text v run) :
    (v :: run).IsChain (a.Joined text) := by
  induction h with
  | final => exact .singleton _
  | step hs _ ih => exact .cons_cons (step_iff_joined.1 hs) ih

theorem Accepting.isFinal_getLastD {v : Visit} {run : List Visit} (h : a.Accepting text v run) :
    a.isFinal (run.getLastD v).state = true := by
  induction h with
  | final hf => exact hf
  | step _ _ ih => rwa [List.getLastD_cons]

theorem Accepting.isRun {p : Path} {run : List Visit} (hp : p.visits = ⟨0, start⟩ :: run)
    (h : a.Accepting text ⟨0, start⟩ run) : a.IsRun text start p := by
  refine ⟨by simp [hp], ⟨run.getLastD ⟨0, start⟩, ?_, h.isFinal_getLastD⟩, hp ▸ h.isChain⟩
  rw [hp, List.getLast?_cons, List.getLastD_eq_getLast?]

/-- The pieces between the visits of a chain are the parts of the text from its first offset to its
last. -/
theorem exists_parts {v : Visit} {run : List Visit} (hv : Text.IsBoundary text v.offset)
    (h : (v :: run).IsChain (a.Joined text)) :
    ∃ parts, (((v :: run).map (·.offset)).zip (run.map (·.offset))).mapM
        (fun (start, stop) => Text.slice? text start stop) = some parts ∧
      parts.length = run.length ∧ (∀ part ∈ parts, part = "" ∨ ∃ c, part = String.singleton c) ∧
      Text.slice? text v.offset (run.getLastD v).offset = some (String.join parts) := by
  induction run generalizing v with
  | nil => exact ⟨[], rfl, rfl, nofun, Text.slice?_self hv⟩
  | cons w run ih =>
    obtain ⟨⟨e, -, -, hspans⟩, hchain⟩ := List.isChain_cons_cons.1 h
    obtain ⟨hw, part, hpart, hone⟩ := hspans.exists_slice hv
    obtain ⟨parts, hparts, hlength, hall, hslice⟩ := ih hw hchain
    refine ⟨part :: parts, ?_, by simp [hlength], List.forall_mem_cons.2 ⟨hone, hall⟩, ?_⟩
    · simp only [List.map_cons, List.zip_cons_cons, List.mapM_cons, hpart] at hparts ⊢
      simp [hparts]
    · rw [List.getLastD_cons, String.join_cons]
      exact Text.slice?_append hpart hslice

/-- The pieces of a run from between two characters can be read off the text. -/
theorem IsRun.exists_consumed {p : Path} (h : a.IsRun text start p)
    (hs : Text.IsBoundary text start) :
    ∃ parts, p.consumed? text = some parts ∧ parts.length + 1 = p.states.length ∧
      (∀ part ∈ parts, part = "" ∨ ∃ c, part = String.singleton c) ∧
      p.matched? text = some (String.join parts) := by
  obtain ⟨run, hrun⟩ : ∃ run, p.visits = ⟨0, start⟩ :: run := by
    have := h.head?_eq
    cases hp : p.visits with
    | nil => simp [hp] at this
    | cons v run => exact ⟨run, by simpa [hp] using this⟩
  obtain ⟨parts, hparts, hlength, hone, hslice⟩ :=
    exists_parts (v := ⟨0, start⟩) hs (hrun ▸ h.isChain)
  refine ⟨parts, ?_, by simp [Path.states, hrun, hlength], hone, ?_⟩
  · simpa [Path.consumed?, Path.offsets, hrun] using hparts
  · rw [Path.matched?, Path.start_eq hrun, Path.stop, Path.last_eq_getLastD hrun]
    exact hslice

end Automaton

namespace Matcher

variable {m : Matcher} {text : String} {start : Nat} {p : Path}

/-- A path that a search accepts, under whatever limits, is a run from where it starts. Its pieces
and the text that it matches can be read off the text. A search that keeps a single trail for all
its pending visits ends with the visits of the same path on it. -/
theorem exec_isRun (hpos : 0 < m.automaton.stateCount) (hd : m.automaton.danglingIds = [])
    (hs : Text.IsBoundary text start) (h : m.exec text start = .ok (some p)) :
    m.automaton.IsRun text start p ∧ p.states.length = p.offsets.length ∧
      (∃ parts, p.consumed? text = some parts ∧ parts.length + 1 = p.states.length ∧
        (∀ part ∈ parts, part = "" ∨ ∃ c, part = String.singleton c) ∧
        p.matched? text = some (String.join parts)) ∧
      ∃ turns, ∀ n, turns ≤ n → m.trailExec text start n = some (.ok (some p.visits)) := by
  have hc := Automaton.closed_of_danglingIds hpos hd
  have hplain : exec ⟨m.automaton, {}⟩ text start = .ok (some p) := by
    rcases exec_eq_or_forbidden hc text start with hsame | ⟨_, _, fault, -, -, hfault⟩
    · exact hsame.symm.trans h
    · cases h.symm.trans hfault
  obtain ⟨result, hresult, -, hsome⟩ := Automaton.exec_accepting text hc start
  obtain rfl := Except.ok.inj (hplain.symm.trans hresult)
  obtain ⟨run, hvisits, haccepting⟩ := hsome p rfl
  have hrun : m.automaton.IsRun text start p := haccepting.isRun hvisits
  obtain ⟨turns, htrail⟩ := trailExec_eq m text start
  refine ⟨hrun, by simp [Path.states, Path.offsets], hrun.exists_consumed hs, turns, ?_⟩
  intro n hn
  rw [htrail n hn, h]
  rfl

/-- The path that a search under limits accepts in the tangled automaton. -/
theorem exec_isRun_tangle :
    0 < Automaton.tangle.stateCount ∧ Automaton.tangle.danglingIds = [] ∧
      Text.IsBoundary "1éa" 1 ∧
      ∃ p, exec ⟨Automaton.tangle, ⟨some 30, some 5⟩⟩ "1éa" 1 = .ok (some p) ∧
        Automaton.tangle.IsRun "1éa" 1 p ∧ p.consumed? "1éa" = some ["", "é", "", "a", ""] := by
  have hpos : 0 < Automaton.tangle.stateCount := by decide
  have hd : Automaton.tangle.danglingIds = [] := by decide
  have hs : Text.IsBoundary "1éa" 1 := by decide
  let p : Path := ⟨⟨3, 4⟩, [⟨2, 4⟩, ⟨1, 3⟩, ⟨2, 3⟩, ⟨1, 1⟩, ⟨0, 1⟩]⟩
  have hexec : exec ⟨Automaton.tangle, ⟨some 30, some 5⟩⟩ "1éa" 1 = .ok (some p) :=
    exec_of_execWithin (n := 30) (by decide +kernel)
  exact ⟨hpos, hd, hs, p, hexec, (exec_isRun (m := ⟨Automaton.tangle, ⟨some 30, some 5⟩⟩)
    hpos hd hs hexec).1, by decide +kernel⟩

end Matcher

end PatternAutomata
