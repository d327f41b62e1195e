import PatternAutomata.Proofs.Automaton.Dangling
import PatternAutomata.Proofs.Search.Turn

/-!
# A search accepts what can be accepted

A search drops every visit that it has entered without consuming before. It loses nothing by that:
as long as there is an accepting run at all, some pending path is the beginning of one that keeps
out of everything seen so far.

## Main statements

* `Automaton.exec_accepting` — a search gives an accepting run, or there is none.
* `Automaton.exec_eq_none_iff` — a search rejects just when there is no such run.
-/
namespace PatternAutomata

@[simp] theorem Path.visits_extend (p : Path) (w : Visit) :
    (p.extend w).visits = p.visits ++ [w] := by
  simp [Path.visits, Path.extend]

@[simp] theorem Path.last_extend (p : Path) (w : Visit) : (p.extend w).last = w := rfl

theorem Path.start_eq {path : Path} {v : Visit} {run : List Visit} (h : path.visits = v :: run) :
    path.start = v.offset := by
  have hhead : path.visits.head? = some (path.earlier.getLastD path.last) := by
    rw [Path.visits, List.head?_reverse, List.getLast?_cons, List.getLastD_eq_getLast?]
  rw [h] at hhead
  rw [Path.start, ← Option.some.inj hhead]

theorem Path.last_eq_getLastD {p : Path} {v : Visit} {run : List Visit} (h : p.visits = v :: run) :
    p.last = run.getLastD v := by
  have hlast : p.visits.getLast? = some p.last := by simp [visits]
  rw [h, List.getLast?_cons] at hlast
  simpa using hlast.symm

namespace Automaton

variable {a : Automaton} {text : String}

/-- The path is a run from state 0 at `start`: what accepts from its end accepts from there. -/
def Extends (a : Automaton) (text : String) (start : Nat) (p : Path) : Prop :=
  ∃ run, p.visits = ⟨0, start⟩ :: run ∧
    ∀ more, a.Accepting text p.last more → a.Accepting text ⟨0, start⟩ (run ++ more)

theorem Extends.extend {start : Nat} {p : Path} {w : Visit} (h : a.Extends text start p)
    (hw : a.Step text p.last w) : a.Extends text start (p.extend w) := by
  obtain ⟨run, hrun, hmore⟩ := h
  refine ⟨run ++ [w], by simp [hrun], fun more hm => ?_⟩
  rw [List.append_assoc]
  exact hmore _ (.step hw hm)

theorem extends_single (start : Nat) : a.Extends text start ⟨⟨0, start⟩, []⟩ :=
  ⟨[], rfl, fun _ h => h⟩

/-- A turn puts paths in front of the others, each one step longer than the path taken up and to
a visit not seen before. -/
theorem pending_afterTurn (text : String) {machine : Machine} (p : Path) (rest : List Path)
    (hc : a.Closed) (hr : a.Ready machine) :
    ∃ front, (a.afterTurn text machine p rest).pending = front ++ rest ∧
      ∀ q ∈ front, ∃ e ∈ a.edgesOf p.last.state, ∃ w, q = p.extend w ∧
        e.next? a.flags text p.last = some w ∧
        (e.label.isEpsilon = true → w ∉ machine.seen) :=
  Machine.exists_pending_foldr a.flags text p (machine.takeUp rest) (a.edgesOf p.last.state)
    (hr.target_lt hc)

theorem seen_afterTurn {machine : Machine} {p : Path} {rest : List Path} (hc : a.Closed)
    (hr : a.Ready machine) :
    (a.afterTurn text machine p rest).seen =
      machine.seen ∪ marks a.flags text (a.edgesOf p.last.state) p.last :=
  Machine.seen_foldr_explore a.flags text p (machine.takeUp rest) (a.edgesOf p.last.state)
    (hr.target_lt hc)

/-- Every step from the path taken up leads to a pending path or to a visit seen before. -/
theorem extend_mem_pending_afterTurn {machine : Machine} {p : Path} {rest : List Path}
    (hc : a.Closed) (hr : a.Ready machine) {e : Edge} {w : Visit}
    (he : e ∈ a.edgesOf p.last.state) (hw : e.next? a.flags text p.last = some w)
    (hn : e.label.isEpsilon = true → w ∉ machine.seen) :
    p.extend w ∈ (a.afterTurn text machine p rest).pending :=
  Machine.extend_mem_pending_foldr a.flags text p (machine.takeUp rest) (a.edgesOf p.last.state)
    (hr.target_lt hc) he hw hn

/-- Some pending path is the beginning of an accepting run that keeps out of what was seen. -/
def Hopeful (a : Automaton) (text : String) (machine : Machine) : Prop :=
  ∃ p ∈ machine.pending, a.AcceptsOutside text machine.seen p.last

/-- A turn leaves something from which a run accepts. If the run comes upon a new visit, this has a
path of its own. Otherwise the run goes on, from the path taken up with an edge that consumes. -/
theorem Hopeful.afterTurn {machine : Machine} {p : Path} {rest : List Path} (hc : a.Closed)
    (hr : a.Ready machine) (h : a.Hopeful text machine) (hp : machine.pending = p :: rest)
    (hf : a.isFinal p.last.state = false) :
    a.Hopeful text (a.afterTurn text machine p rest) := by
  obtain ⟨q, hq, hout⟩ := h
  rw [hp, List.mem_cons] at hq
  obtain ⟨front, hfront, -⟩ := pending_afterTurn text p rest hc hr
  have hrest : ∀ q ∈ rest, q ∈ (a.afterTurn text machine p rest).pending := fun q hq => by
    rw [hfront]
    exact List.mem_append_right _ hq
  rcases hout.widen (a.afterTurn text machine p rest).seen with hout' | ⟨w, hw, hn, hout'⟩
  · rcases hq with rfl | hq
    · obtain ⟨w, e, he, hw, hsee, hout''⟩ := hout'.exists_step hf
      have hi : e.label.isEpsilon = false := by
        refine Bool.eq_false_iff.2 fun hi => hsee hi ?_
        rw [seen_afterTurn hc hr]
        exact .inr ⟨e, he, hi, hw⟩
      refine ⟨q.extend w, extend_mem_pending_afterTurn hc hr he hw ?_, hout''⟩
      rw [hi]
      exact fun h => absurd h Bool.false_ne_true
    · exact ⟨q, hrest q hq, hout'⟩
  · rw [seen_afterTurn hc hr] at hw
    obtain ⟨e, he, -, hnext⟩ := hw.resolve_left hn
    exact ⟨p.extend w, extend_mem_pending_afterTurn hc hr he hnext fun _ => hn, hout'⟩

/-- A search without limits gives the visits of an accepting run, or there is no such run. The first
visit is seen from the beginning, so such a run has to be cut at its last return. -/
theorem exec_accepting (text : String) (hc : a.Closed) (start : Nat) :
    ∃ result, Matcher.exec ⟨a, {}⟩ text start = .ok result ∧
      (result = none → ¬a.Accepts text ⟨0, start⟩) ∧
      ∀ p, result = some p →
        ∃ run, p.visits = ⟨0, start⟩ :: run ∧ a.Accepting text ⟨0, start⟩ run := by
  let Inv (machine : Machine) : Prop :=
    (∀ p ∈ machine.pending, a.Extends text start p) ∧
      (a.Accepts text ⟨0, start⟩ → a.Hopeful text machine)
  refine exec_induction hc Inv start ?init ?reject ?accept ?turn
  case init =>
    refine ⟨fun p hp => ?_, fun h => ⟨_, List.mem_singleton_self _, ?_⟩⟩
    · rw [List.mem_singleton.1 hp]
      exact extends_single start
    · rw [seen_machineAt hc]
      rcases (acceptsOutside_empty h).widen {⟨0, start⟩} with hout | ⟨w, hw, -, hout⟩
      · exact hout
      · rw [Set.mem_singleton_iff] at hw
        exact hw ▸ hout
  case reject =>
    rintro machine ⟨-, h⟩ hp
    refine ⟨fun _ hacc => ?_, nofun⟩
    obtain ⟨p, hmem, -⟩ := h hacc
    rw [hp] at hmem
    cases hmem
  case accept =>
    rintro machine p rest ⟨h, -⟩ hp hf
    refine ⟨nofun, fun q hq => ?_⟩
    obtain rfl := Option.some.inj hq
    obtain ⟨run, hrun, hmore⟩ := h p (hp ▸ List.mem_cons_self)
    exact ⟨run, hrun, by simpa using hmore [] (.final hf)⟩
  case turn =>
    rintro machine p rest hr ⟨h, hhope⟩ hp hf
    refine ⟨fun q hq => ?_, fun hacc => (hhope hacc).afterTurn hc hr hp hf⟩
    obtain ⟨front, hfront, hmem⟩ := pending_afterTurn text p rest hc hr
    rw [hfront, List.mem_append] at hq
    rcases hq with hq | hq
    · obtain ⟨e, he, w, rfl, hw, -⟩ := hmem q hq
      exact (h p (hp ▸ List.mem_cons_self)).extend ⟨e, he, hw⟩
    · exact h q (hp ▸ List.mem_cons_of_mem _ hq)

/-- A search without limits rejects just when nothing accepts. -/
theorem Closed.exists_exec (hc : a.Closed) (text : String) (start : Nat) :
    ∃ result, Matcher.exec ⟨a, {}⟩ text start = .ok result ∧
      (result = none ↔ ¬a.Accepts text ⟨0, start⟩) := by
  obtain ⟨result, hexec, hnone, hsome⟩ := exec_accepting text hc start
  refine ⟨result, hexec, hnone, fun hacc => ?_⟩
  cases result with
  | none => rfl
  | some path =>
    obtain ⟨run, -, hrun⟩ := hsome path rfl
    exact absurd ⟨run, hrun⟩ hacc

/-- A search without limits in an automaton without dangling ids gives a result. It rejects just
when no sequence of edges leads from state 0, where it starts, to a final state. -/
theorem exec_eq_none_iff (hpos : 0 < a.stateCount) (hd : a.danglingIds = []) (text : String)
    (start : Nat) :
    (∃ result, Matcher.exec ⟨a, {}⟩ text start = .ok result) ∧
      (Matcher.exec ⟨a, {}⟩ text start = .ok none ↔ ¬a.Accepts text ⟨0, start⟩) := by
  obtain ⟨result, hexec, hnone, hsome⟩ := exec_accepting text (closed_of_danglingIds hpos hd) start
  refine ⟨⟨result, hexec⟩, ⟨fun h => ?_, fun h => ?_⟩⟩
  · exact hnone (Except.ok.inj (hexec.symm.trans h))
  · cases result with
    | none => exact hexec
    | some p =>
      obtain ⟨run, -, hrun⟩ := hsome p rfl
      exact absurd ⟨run, hrun⟩ h

theorem exec_eq_none_iff_tangle :
    0 < tangle.stateCount ∧ tangle.danglingIds = [] ∧
      Matcher.exec ⟨tangle, {}⟩ "éa1" 0 = .ok none ∧ ¬tangle.Accepts "éa1" ⟨0, 0⟩ := by
  have hpos : 0 < tangle.stateCount := by decide
  have hd : tangle.danglingIds = [] := by decide
  have hexec : Matcher.exec ⟨tangle, {}⟩ "éa1" 0 = .ok none :=
    Matcher.exec_of_execWithin (n := 40) (by decide +kernel)
  exact ⟨hpos, hd, hexec, (exec_eq_none_iff hpos hd "éa1" 0).2.1 hexec⟩

end Automaton

end PatternAutomata
