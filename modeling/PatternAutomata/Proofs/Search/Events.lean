import PatternAutomata.Proofs.Search.Limits
import PatternAutomata.Search.Trace

/-!
# The visits that a trace shows

Each turn of a search leaves one event for the path that it takes up. So the trace of a search
shows the visits that the machines of the search have behind them.

## Main statement

* `Matcher.exists_arises_of_traceExec` — the visits of a trace, under whatever limits.
-/
namespace PatternAutomata

/-- The visit that is taken up. -/
def Event.popped? : Event → Option Visit
  | pop path => some path.last
  | _ => none

namespace Matcher

variable {m : Matcher} {text : String} {start : Nat} {p : Path} {rest : List Path}
  {machine : Machine}

theorem popped_edgeEvents (machine : Machine) (edges : List Edge) :
    (m.edgeEvents text p machine edges).filterMap Event.popped? = [] := by
  fun_induction edgeEvents m text p machine edges with
  | case1 => rfl
  | case2 => rfl
  | case3 machine edge edges next hnext ih =>
    have hattempt : (Event.ofAttempt p.last edge
        (m.attempt text machine.visited p.last edge)).toList.filterMap Event.popped? = [] := by
      cases m.attempt text machine.visited p.last edge <;> rfl
    rw [List.filterMap_append, hattempt, ih]
    rfl

/-- A turn that is allowed takes up the first pending path. -/
theorem popped_turnEvents (hp : machine.pending = p :: rest)
    (hx : m.limits.exhausted? machine.spent = none) :
    (m.turnEvents text start machine).filterMap Event.popped? = [p.last] := by
  unfold turnEvents
  rw [hp, hx]
  by_cases hf : m.automaton.isFinal p.last.state = true
  · simp [hf, Event.popped?]
  · simp [hf, Event.popped?, popped_edgeEvents]

/-- A turn takes up the first pending path, or none. -/
theorem prefix_popped_turnEvents (m : Matcher) (text : String) (start : Nat) (machine : Machine) :
    (m.turnEvents text start machine).filterMap Event.popped? <+:
      machine.pending.map (·.last) := by
  cases hp : machine.pending with
  | nil => simp [turnEvents, hp, Event.popped?]
  | cons p rest =>
    cases hx : m.limits.exhausted? machine.spent with
    | some limit => simp [turnEvents, hp, hx]
    | none =>
      rw [popped_turnEvents hp hx]
      exact List.prefix_append [p.last] (rest.map (·.last))

theorem popped_appendList (events : Array Event) (more : List Event) :
    (events.appendList more).toList.filterMap Event.popped? =
      events.toList.filterMap Event.popped? ++ more.filterMap Event.popped? := by
  rw [Array.appendList_eq_append, Array.toList_appendList, List.filterMap_append]

theorem exists_arises_of_traceRun (hc : m.automaton.Closed) {taken : List Visit}
    {events : Array Event} (h : m.automaton.Arises text start taken machine)
    (hevents : events.toList.filterMap Event.popped? = taken.reverse) :
    ∃ taken' machine', m.automaton.Arises text start taken' machine' ∧
      (m.traceRun text start machine events).1.toList.filterMap Event.popped? <+:
        taken'.reverse ++ machine'.pending.map (·.last) := by
  fun_induction traceRun m text start machine events generalizing taken with
  | case1 machine events result hturn =>
    refine ⟨taken, machine, h, ?_⟩
    rw [popped_appendList, hevents]
    exact (List.prefix_append_right_inj _).2 (prefix_popped_turnEvents m text start machine)
  | case2 machine events machine' hturn ih =>
    obtain ⟨p, rest, hp, h'⟩ := arises_of_turn hc h hturn
    have hx : m.limits.exhausted? machine.spent = none := by
      cases hx : m.limits.exhausted? machine.spent with
      | none => rfl
      | some limit => simp [turn, hp, hx] at hturn
    refine ih h' ?_
    rw [popped_appendList, hevents, popped_turnEvents hp hx, List.reverse_cons]

/-- The visits that the trace of a search shows are those that a machine of the search without
limits has taken up, the first of its pending ones perhaps included. -/
theorem exists_arises_of_traceExec (hc : m.automaton.Closed) (text : String) (start : Nat) :
    ∃ taken machine, m.automaton.Arises text start taken machine ∧
      (m.traceExec text start).1.filterMap Event.popped? <+:
        taken.reverse ++ machine.pending.map (·.last) := by
  unfold traceExec traceExecInto
  rcases machineAt_cases hc start with hstart | ⟨fault, -, hstart⟩
  · rw [hstart]
    exact exists_arises_of_traceRun hc .init rfl
  · rw [hstart]
    exact ⟨[], _, .init, List.nil_prefix⟩

end Matcher

end PatternAutomata
