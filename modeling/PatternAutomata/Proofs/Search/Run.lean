import Mathlib.Data.Set.Insert
import PatternAutomata.Search.Exec

/-!
# Runs of an automaton

A run goes from visit to visit along edges that can be passed where they are met. It says nothing
about the order in which a search tries the edges, nor about what a search has seen before.

## Main definitions

* `Label.pass?`, `Edge.next?` — where an edge leads to.
* `Automaton.Accepting`, `Automaton.Accepts` — runs that end in a final state.
* `Automaton.AcceptsOutside` — such a run that keeps out of a set of visits, as far as it
  consumes nothing.
* `Automaton.Closed` — no edge leads out of the automaton.
* `Automaton.FinalsEnd` — no edge leaves a final state.
-/
namespace PatternAutomata

/-- The offset behind the label, if it can be passed at `offset`. -/
def Label.pass? (l : Label) (flags : Flags) (text : String) (offset : Nat) : Option Nat :=
  match l with
  | .epsilon none => some offset
  | .epsilon (some guard) => if guard.holds text offset flags.multiline then some offset else none
  | label => (Text.charAt text offset).bind fun c =>
      if label.accepts c flags.dotAll then some (offset + c.utf8Size) else none

/-- The visit that follows `v` along an edge. -/
def Edge.next? (e : Edge) (flags : Flags) (text : String) (v : Visit) : Option Visit :=
  (e.label.pass? flags text v.offset).map fun offset => ⟨e.target, offset⟩

/-- An edge that consumes nothing and has no guard. -/
def Edge.free (target : Nat) : Edge :=
  ⟨.epsilon none, target⟩

@[simp] theorem Edge.next?_free (target : Nat) (flags : Flags) (text : String) (v : Visit) :
    (Edge.free target).next? flags text v = some ⟨target, v.offset⟩ := rfl

@[simp] theorem Edge.isEpsilon_free (target : Nat) :
    (Edge.free target).label.isEpsilon = true := rfl

@[simp] theorem Edge.target_free (target : Nat) : (Edge.free target).target = target := rfl

theorem Label.pass?_eq_of_isEpsilon {l : Label} {flags : Flags} {text : String}
    {offset offset' : Nat} (hl : l.isEpsilon = true)
    (h : l.pass? flags text offset = some offset') : offset' = offset := by
  cases l with
  | epsilon guard => cases guard <;> grind [Label.pass?]
  | _ => cases hl

theorem Label.pass?_consuming {l : Label} {flags : Flags} {text : String} {offset offset' : Nat}
    (hl : l.isEpsilon = false) :
    l.pass? flags text offset = some offset' ↔
      ∃ c, Text.charAt text offset = some c ∧ l.accepts c flags.dotAll = true ∧
        offset' = offset + c.utf8Size := by
  cases l with
  | epsilon guard => cases hl
  | _ => grind [Label.pass?, Option.bind_eq_some_iff]

theorem Label.le_of_pass? {l : Label} {flags : Flags} {text : String} {offset offset' : Nat}
    (h : l.pass? flags text offset = some offset') : offset ≤ offset' := by
  cases hl : l.isEpsilon with
  | true => exact (pass?_eq_of_isEpsilon hl h).ge
  | false =>
    obtain ⟨c, -, -, rfl⟩ := (pass?_consuming hl).1 h
    exact Nat.le_add_right _ _

theorem Edge.next?_eq_some_iff {e : Edge} {flags : Flags} {text : String} {v w : Visit} :
    e.next? flags text v = some w ↔
      w.state = e.target ∧ e.label.pass? flags text v.offset = some w.offset := by
  cases w
  simp only [Edge.next?, Option.map_eq_some_iff, Visit.mk.injEq]
  grind

/-- Edges that consume nothing stay where they are. -/
theorem Edge.offset_eq_of_next? {e : Edge} {flags : Flags} {text : String} {v w : Visit}
    (he : e.label.isEpsilon = true) (h : e.next? flags text v = some w) : w.offset = v.offset :=
  Label.pass?_eq_of_isEpsilon he (next?_eq_some_iff.1 h).2

/-- An edge that consumes leads on in the text. -/
theorem Edge.offset_lt_of_next? {e : Edge} {flags : Flags} {text : String} {v w : Visit}
    (hi : e.label.isEpsilon = false) (hw : e.next? flags text v = some w) :
    v.offset < w.offset ∧ w.offset ≤ text.utf8ByteSize := by
  obtain ⟨c, hc, -, hoffset⟩ := (Label.pass?_consuming hi).1 (next?_eq_some_iff.1 hw).2
  have hle := Matcher.le_size_of_charAt hc
  have hpos := c.utf8Size_pos
  omega

namespace Automaton

/-- The edges that leave state `id`, in order of priority; none if there is no such state. -/
def edgesOf (a : Automaton) (id : Nat) : List Edge :=
  (a.edges? id).getD []

variable (a : Automaton) (text : String)

/-- From `v` an edge leads to `w`. -/
def Step (v w : Visit) : Prop :=
  ∃ e ∈ a.edgesOf v.state, e.next? a.flags text v = some w

/-- The visits `run` follow `v`, and the last of all is in a final state. -/
inductive Accepting : Visit → List Visit → Prop
  | final {v : Visit} : a.isFinal v.state = true → Accepting v []
  | step {v w : Visit} {run : List Visit} :
      a.Step text v w → Accepting w run → Accepting v (w :: run)

def Accepts (v : Visit) : Prop :=
  ∃ run, a.Accepting text v run

/-- From `v` a run leads to a final state and on its way enters no visit of `seen` without
consuming. -/
inductive AcceptsOutside (seen : Set Visit) : Visit → Prop
  | final {v : Visit} : a.isFinal v.state = true → AcceptsOutside seen v
  | step {v w : Visit} (e : Edge) : e ∈ a.edgesOf v.state → e.next? a.flags text v = some w →
      (e.label.isEpsilon = true → w ∉ seen) → AcceptsOutside seen w → AcceptsOutside seen v

/-- There is a state to begin with, and every edge leads to a state. -/
structure Closed : Prop where
  pos : 0 < a.stateCount
  target_lt : ∀ id, ∀ e ∈ a.edgesOf id, e.target < a.stateCount

/-- No edge leaves a final state. -/
def FinalsEnd : Prop :=
  ∀ id, a.isFinal id = true → a.edgesOf id = []

variable {a text} {seen seen' : Set Visit} {v w : Visit}

theorem isFinal_eq_false (hend : a.FinalsEnd) {e : Edge} {id : Nat} (he : e ∈ a.edgesOf id) :
    a.isFinal id = false := by
  cases hf : a.isFinal id with
  | false => rfl
  | true =>
    rw [hend id hf] at he
    cases he

theorem step_free {target : Nat} (h : .free target ∈ a.edgesOf v.state) :
    a.Step text v ⟨target, v.offset⟩ :=
  ⟨_, h, rfl⟩

theorem edges?_eq_some {id : Nat} (h : id < a.stateCount) :
    a.edges? id = some (a.edgesOf id) := by
  have h' : id < a.states.size := h
  simp [edgesOf, edges?, Array.getElem?_eq_getElem h']

theorem AcceptsOutside.accepts (h : a.AcceptsOutside text seen v) : a.Accepts text v := by
  induction h with
  | final hf => exact ⟨[], .final hf⟩
  | step e he hw _ _ ih =>
    obtain ⟨run, hrun⟩ := ih
    exact ⟨_, .step ⟨e, he, hw⟩ hrun⟩

/-- The fewer visits are to be kept out of, the more runs there are. -/
theorem AcceptsOutside.mono (h : a.AcceptsOutside text seen' v) (hs : seen ⊆ seen') :
    a.AcceptsOutside text seen v := by
  induction h with
  | final hf => exact .final hf
  | step e he hw hn _ ih => exact .step e he hw (fun hi hm => hn hi (hs hm)) ih

theorem acceptsOutside_empty (h : a.Accepts text v) : a.AcceptsOutside text ∅ v := by
  obtain ⟨run, hrun⟩ := h
  induction hrun with
  | final hf => exact .final hf
  | step hs _ ih =>
    obtain ⟨e, he, hw⟩ := hs
    exact .step e he hw (fun _ => Set.notMem_empty _) ih

/-- When more visits are to be kept out of, a run still does, or it passes through one of the new
ones and from the last of these on it does. -/
theorem AcceptsOutside.widen (h : a.AcceptsOutside text seen v) (seen' : Set Visit) :
    a.AcceptsOutside text seen' v ∨
      ∃ w ∈ seen', w ∉ seen ∧ a.AcceptsOutside text seen' w := by
  induction h with
  | final hf => exact .inl (.final hf)
  | @step v w e he hw hn _ ih =>
    rcases ih with ih | ih
    · by_cases hm : e.label.isEpsilon = true ∧ w ∈ seen'
      · exact .inr ⟨w, hm.2, hn hm.1, ih⟩
      · exact .inl (.step e he hw (fun hi hs => hm ⟨hi, hs⟩) ih)
    · exact .inr ih

/-- A run from a state that is not final begins with a step. -/
theorem Accepting.exists_step {run : List Visit} (h : a.Accepting text v run)
    (hv : a.isFinal v.state = false) :
    ∃ w run', run = w :: run' ∧ a.Step text v w ∧ a.Accepting text w run' := by
  cases h with
  | final hf => rw [hv] at hf; cases hf
  | step hs h => exact ⟨_, _, rfl, hs, h⟩

/-- What follows a visit on an accepting run accepts from there. -/
theorem Accepting.of_append {run before after : List Visit} (h : a.Accepting text v run)
    (heq : v :: run = before ++ w :: after) : a.Accepting text w after := by
  induction before generalizing v run with
  | nil =>
    cases heq
    exact h
  | cons u before ih =>
    obtain ⟨-, heq⟩ := List.cons.inj heq
    cases h with
    | final _ => simp at heq
    | step _ h => exact ih h heq

/-- A run does not go back in the text. -/
theorem Accepting.le_offset {run : List Visit} (h : a.Accepting text v run) :
    ∀ w ∈ run, v.offset ≤ w.offset := by
  induction h with
  | final => exact nofun
  | step hs _ ih =>
    obtain ⟨e, -, hw⟩ := hs
    have hle := Label.le_of_pass? (Edge.next?_eq_some_iff.1 hw).2
    exact List.forall_mem_cons.2 ⟨hle, fun u hu => hle.trans (ih u hu)⟩

theorem Accepting.offset_le_last {run : List Visit} (h : a.Accepting text v run) :
    v.offset ≤ (run.getLastD v).offset := by
  cases run with
  | nil => exact le_rfl
  | cons w run =>
    rw [List.getLastD_cons]
    exact h.le_offset _ List.getLastD_mem_cons

theorem AcceptsOutside.exists_step (h : a.AcceptsOutside text seen v)
    (hv : a.isFinal v.state = false) :
    ∃ w, ∃ e ∈ a.edgesOf v.state, e.next? a.flags text v = some w ∧
      (e.label.isEpsilon = true → w ∉ seen) ∧ a.AcceptsOutside text seen w := by
  cases h with
  | final hf => rw [hv] at hf; cases hf
  | step e he hw hn h => exact ⟨_, e, he, hw, hn, h⟩

end Automaton

end PatternAutomata
