import PatternAutomata.Proofs.Region.Walk

/-!
# Accepting runs go through a region

If the edges of an automaton are those of a region, an accepting run from the entry of the region
is a walk to its exit followed by an accepting run from there. So whether anything accepts from the
entry depends on the walks, and on what accepts from the exit.

## Main statements

* `Region.exists_walk`, `Region.Walk.accepting` — a run is split, and put together again.
* `Region.accepts_iff` — what accepts from the entry of a region.
-/
namespace PatternAutomata

namespace Block

variable {b : Block} {e : Edge}

theorem mem_startEdges :
    e ∈ b.startEdges ↔ e = .free b.inner ∨ b.shape.skip = true ∧ e = .free b.finish := by
  grind [startEdges]

theorem mem_finishEdges :
    e ∈ b.finishEdges ↔ e = .free b.next ∨ b.shape.again = true ∧ e = .free b.start := by
  grind [finishEdges]

end Block

namespace Automaton

variable {a : Automaton} {text : String} {v : Visit} {run : List Visit}

theorem Accepting.along_free {target : Nat} (hend : a.FinalsEnd) (h : a.Accepting text v run)
    (he : a.edgesOf v.state = [.free target]) :
    ∃ run', run = ⟨target, v.offset⟩ :: run' ∧ a.Accepting text ⟨target, v.offset⟩ run' := by
  obtain ⟨w, run', rfl, ⟨e, hmem, hw⟩, h⟩ :=
    h.exists_step (isFinal_eq_false hend (he ▸ List.mem_singleton_self _))
  rw [he, List.mem_singleton] at hmem
  subst hmem
  obtain rfl := Option.some.inj hw
  exact ⟨run', rfl, h⟩

end Automaton

namespace Region

variable {a : Automaton} {text : String} {r : Region} {b : Block} {entry : Nat} {s t : Cursor}
  {run run' : List Visit} {W : Cursor → List Visit → Cursor → Prop}

open Automaton

/-- A run through the part of a block. -/
def Passes (a : Automaton) (text : String) (entry exit : Nat)
    (W : Cursor → List Visit → Cursor → Prop) : Prop :=
  ∀ s run, a.Accepting text ⟨entry, s.offset⟩ run →
    ∃ run₁ t run₂, run = run₁ ++ run₂ ∧ W s run₁ t ∧ a.Accepting text ⟨exit, t.offset⟩ run₂

theorem exists_lap (hend : a.FinalsEnd) {outer : Nat} (hW : Passes a text b.inner outer W)
    (hstart : a.edgesOf b.start = b.startEdges) (houter : a.edgesOf outer = [.free b.finish])
    (h : a.Accepting text ⟨b.start, s.offset⟩ run) :
    ∃ lap t run', run = lap ++ run' ∧ lap ≠ [] ∧ Lap b W s lap t ∧
      a.Accepting text ⟨b.finish, t.offset⟩ run' := by
  have hinner : Edge.free b.inner ∈ a.edgesOf b.start :=
    hstart ▸ Block.mem_startEdges.2 (.inl rfl)
  obtain ⟨w, run', rfl, ⟨e, he, hw⟩, h⟩ := h.exists_step (isFinal_eq_false hend hinner)
  rw [hstart, Block.mem_startEdges] at he
  rcases he with rfl | ⟨hskip, rfl⟩
  · obtain rfl := Option.some.inj hw
    obtain ⟨run₁, t, run₂, rfl, hwalk, h⟩ := hW s _ h
    obtain ⟨run₃, rfl, h'⟩ := h.along_free hend houter
    exact ⟨_, t, run₃, by simp, by simp, .through hwalk, h'⟩
  · obtain rfl := Option.some.inj hw
    exact ⟨_, s, run', rfl, by simp, .skip hskip, h⟩

/-- The rounds of a block are found one after the other, each of which leaves a shorter run. -/
theorem exists_laps (hend : a.FinalsEnd) {outer : Nat} (hW : Passes a text b.inner outer W)
    (hstart : a.edgesOf b.start = b.startEdges) (houter : a.edgesOf outer = [.free b.finish])
    (hfinish : a.edgesOf b.finish = b.finishEdges)
    (h : a.Accepting text ⟨b.start, s.offset⟩ run) :
    ∃ run₁ t run₂, run = run₁ ++ run₂ ∧ Laps b W s run₁ t ∧
      a.Accepting text ⟨b.next, t.offset⟩ run₂ := by
  induction hn : run.length using Nat.strong_induction_on generalizing s run with
  | _ n ih =>
    subst hn
    obtain ⟨lap, t, run', rfl, hne, hlap, h⟩ := exists_lap hend hW hstart houter h
    have hnext : Edge.free b.next ∈ a.edgesOf b.finish :=
      hfinish ▸ Block.mem_finishEdges.2 (.inl rfl)
    obtain ⟨w, run'', rfl, ⟨e, he, hw⟩, h⟩ := h.exists_step (isFinal_eq_false hend hnext)
    rw [hfinish, Block.mem_finishEdges] at he
    rcases he with rfl | ⟨hagain, rfl⟩
    · obtain rfl := Option.some.inj hw
      exact ⟨_, t, run'', by simp, .leave hlap, h⟩
    · obtain rfl := Option.some.inj hw
      obtain ⟨run₁, u, run₂, rfl, hlaps, h⟩ := ih run''.length (by simp; omega) h rfl
      exact ⟨_, u, run₂, by simp, .again hagain hlap hlaps, h⟩

/-- An accepting run from the entry of a region begins with a walk to its exit. -/
theorem exists_walk (hend : a.FinalsEnd) (hfit : r.Fits a.edgesOf entry)
    (h : a.Accepting text ⟨entry, s.offset⟩ run) :
    ∃ run₁ t run₂, run = run₁ ++ run₂ ∧ r.Walk a.flags text s run₁ t ∧
      a.Accepting text ⟨r.exit entry, t.offset⟩ run₂ := by
  induction r generalizing entry s run with
  | empty => exact ⟨[], s, run, rfl, ⟨rfl, rfl⟩, h⟩
  | edge label target =>
    have hmem : ⟨label, target⟩ ∈ a.edgesOf entry := hfit ▸ List.mem_singleton_self _
    obtain ⟨w, run', rfl, ⟨e, he, hw⟩, h⟩ := h.exists_step (isFinal_eq_false hend hmem)
    rw [show a.edgesOf entry = _ from hfit, List.mem_singleton] at he
    subst he
    obtain ⟨hstate, hpass⟩ := Edge.next?_eq_some_iff.1 hw
    obtain ⟨id, offset⟩ := w
    obtain rfl : id = target := hstate
    exact ⟨_, s.goto offset, run', rfl, ⟨offset, hpass, rfl, rfl⟩, h⟩
  | seq r r' ih ih' =>
    obtain ⟨run₁, m, run₂, rfl, hwalk, h⟩ := ih hfit.1 h
    obtain ⟨run₃, t, run₄, rfl, hwalk', h⟩ := ih' hfit.2 h
    exact ⟨_, t, run₄, (List.append_assoc ..).symm, ⟨_, m, _, hwalk, hwalk', rfl⟩, h⟩
  | alt count start part join ih =>
    obtain ⟨hpos, hedges, hparts⟩ := hfit
    have hmem : Edge.free (start 0) ∈ a.edgesOf entry := by
      rw [hedges]
      exact List.mem_map.2 ⟨0, List.mem_range.2 hpos, rfl⟩
    obtain ⟨w, run', rfl, ⟨e, he, hw⟩, h⟩ := h.exists_step (isFinal_eq_false hend hmem)
    rw [hedges] at he
    obtain ⟨i, hi, rfl⟩ := List.mem_map.1 he
    obtain rfl := Option.some.inj hw
    have hi := List.mem_range.1 hi
    obtain ⟨run₁, t, run₂, rfl, hwalk, h⟩ := ih i (hparts i hi).1 h
    obtain ⟨run₃, rfl, h'⟩ := h.along_free hend (hparts i hi).2
    exact ⟨_, t, run₃, by simp, ⟨i, hi, _, hwalk, rfl⟩, h'⟩
  | block b body ih =>
    obtain ⟨hentry, hstart, hbody, houter, hfinish⟩ := hfit
    obtain ⟨run₁, rfl, h₁⟩ := h.along_free hend hentry
    obtain ⟨run₂, t, run₃, rfl, hlaps, h₂⟩ :=
      exists_laps hend (fun _ _ => ih hbody) hstart houter hfinish h₁
    exact ⟨_, t, run₃, by simp, ⟨_, hlaps, rfl⟩, h₂⟩
  | capture index first last body ih =>
    obtain ⟨hentry, hbody, hlast⟩ := hfit
    obtain ⟨run₁, rfl, h₁⟩ := h.along_free hend hentry
    obtain ⟨run₂, m, run₃, rfl, hwalk, h₂⟩ := ih hbody h₁
    obtain ⟨run₄, rfl, h₃⟩ := h₂.along_free hend hlast
    exact ⟨_, m.report index s.offset, run₄, by simp, ⟨m, _, hwalk, rfl, rfl⟩, h₃⟩

/-- What accepts after the part of a block accepts from its start on. -/
theorem Laps.accepting {outer : Nat} (hstart : a.edgesOf b.start = b.startEdges)
    (houter : a.edgesOf outer = [.free b.finish]) (hfinish : a.edgesOf b.finish = b.finishEdges)
    (hW : ∀ s run t run', W s run t → a.Accepting text ⟨outer, t.offset⟩ run' →
      a.Accepting text ⟨b.inner, s.offset⟩ (run ++ run'))
    (h : Laps b W s run t) (h' : a.Accepting text ⟨b.next, t.offset⟩ run') :
    a.Accepting text ⟨b.start, s.offset⟩ (run ++ run') := by
  have hlap {s t : Cursor} {lap rest : List Visit} (h : Lap b W s lap t)
      (h' : a.Accepting text ⟨b.finish, t.offset⟩ rest) :
      a.Accepting text ⟨b.start, s.offset⟩ (lap ++ rest) := by
    cases h with
    | skip hskip => exact .step (step_free (hstart ▸ Block.mem_startEdges.2 (.inr ⟨hskip, rfl⟩))) h'
    | through h =>
      have hout : a.Accepting text ⟨outer, t.offset⟩ (⟨b.finish, t.offset⟩ :: rest) :=
        .step (step_free (houter ▸ List.mem_singleton_self _)) h'
      rw [List.cons_append, List.append_assoc]
      exact .step (step_free (hstart ▸ Block.mem_startEdges.2 (.inl rfl))) (hW _ _ _ _ h hout)
  induction h with
  | leave h =>
    rw [List.append_assoc]
    exact hlap h (.step (step_free (hfinish ▸ Block.mem_finishEdges.2 (.inl rfl))) h')
  | again hagain h _ ih =>
    rw [List.append_assoc]
    exact hlap h
      (.step (step_free (hfinish ▸ Block.mem_finishEdges.2 (.inr ⟨hagain, rfl⟩))) (ih h'))

/-- A walk followed by an accepting run from the exit is an accepting run from the entry. -/
theorem Walk.accepting (hfit : r.Fits a.edgesOf entry) (h : r.Walk a.flags text s run t)
    (h' : a.Accepting text ⟨r.exit entry, t.offset⟩ run') :
    a.Accepting text ⟨entry, s.offset⟩ (run ++ run') := by
  induction r generalizing entry s run t run' with
  | empty =>
    obtain ⟨rfl, rfl⟩ := h
    exact h'
  | edge label target =>
    obtain ⟨offset, hpass, rfl, rfl⟩ := h
    have hmem : ⟨label, target⟩ ∈ a.edgesOf entry := hfit ▸ List.mem_singleton_self _
    exact .step ⟨_, hmem, Edge.next?_eq_some_iff.2 ⟨rfl, hpass⟩⟩ h'
  | seq r r' ih ih' =>
    obtain ⟨run₁, m, run₂, h₁, h₂, rfl⟩ := h
    rw [List.append_assoc]
    exact ih hfit.1 h₁ (ih' hfit.2 h₂ h')
  | alt count start part join ih =>
    obtain ⟨-, hedges, hparts⟩ := hfit
    obtain ⟨i, hi, run₁, h, rfl⟩ := h
    have hmem : Edge.free (start i) ∈ a.edgesOf entry := by
      rw [hedges]
      exact List.mem_map.2 ⟨i, List.mem_range.2 hi, rfl⟩
    rw [List.cons_append, List.append_assoc]
    refine .step (step_free hmem) (ih i (hparts i hi).1 h ?_)
    exact .step (step_free ((hparts i hi).2 ▸ List.mem_singleton_self _)) h'
  | block b body ih =>
    obtain ⟨hentry, hstart, hbody, houter, hfinish⟩ := hfit
    obtain ⟨run₁, h, rfl⟩ := h
    exact .step (step_free (hentry ▸ List.mem_singleton_self _))
      (h.accepting hstart houter hfinish (fun _ _ _ _ => ih hbody) h')
  | capture index first last body ih =>
    obtain ⟨hentry, hbody, hlast⟩ := hfit
    obtain ⟨m, run₁, h, rfl, rfl⟩ := h
    rw [List.cons_append, List.append_assoc]
    refine .step (step_free (hentry ▸ List.mem_singleton_self _)) (ih hbody h ?_)
    exact .step (step_free (hlast ▸ List.mem_singleton_self _)) h'

/-- From the entry of a region accepts what a walk leads to at its exit. -/
theorem accepts_iff (hend : a.FinalsEnd) (hfit : r.Fits a.edgesOf entry) (s : Cursor) :
    a.Accepts text ⟨entry, s.offset⟩ ↔
      ∃ run t, r.Walk a.flags text s run t ∧ a.Accepts text ⟨r.exit entry, t.offset⟩ := by
  constructor
  · rintro ⟨run, h⟩
    obtain ⟨run₁, t, run₂, -, hwalk, h⟩ := exists_walk hend hfit h
    exact ⟨run₁, t, hwalk, run₂, h⟩
  · rintro ⟨run, t, hwalk, run', h⟩
    exact ⟨_, hwalk.accepting hfit h⟩

end Region

end PatternAutomata
