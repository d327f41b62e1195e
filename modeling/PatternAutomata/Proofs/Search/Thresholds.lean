import PatternAutomata.Proofs.Search.Events
import PatternAutomata.Proofs.Search.Termination
import PatternAutomata.Proofs.Steps

/-!
# What a search costs, and which limits allow it

The trace of a search without limits shows how many paths it takes up, and how many are pending
after each that it adds. A search under limits goes the same way as long as both numbers keep
within them. So it gives the same result if they do, and the fault of a limit that they exceed if
they do not.

## Main definitions

* `Event.popCount`, `Event.peak` — the two numbers, read off a trace.
* `Limits.Allow`, `Limits.Exceeded` — the limits, or one of them, compared with the numbers.
* `Limits.Relaxes` — limits that have been raised or removed.
* `Limits.Verdict` — what is left of a result under limits.

## Main statements

* `Matcher.run_verdict` — the rest of a search under limits.
* `Automaton.exec_under_limits` — the result of a search under limits.
-/
namespace PatternAutomata

namespace Event

/-- How many paths are taken up. -/
def popCount (events : List Event) : Nat :=
  (events.filterMap popped?).length

/-- The most paths that are pending after one has been added, `n` being pending before the
events. A search begins by adding a path. -/
def peak : Nat → List Event → Nat
  | _, [] => 0
  | n, scan _ :: events => max (n + 1) (peak (n + 1) events)
  | n, push _ _ _ :: events => max (n + 1) (peak (n + 1) events)
  | n, pop _ :: events => peak (n - 1) events
  | n, _ :: events => peak n events

theorem popCount_append (events events' : List Event) :
    popCount (events ++ events') = popCount events + popCount events' := by
  simp [popCount]

end Event

namespace Limits

/-- A search is allowed that takes up so many paths, and has so many pending at its peak. -/
structure Allow (l : Limits) (pops peak : Nat) : Prop where
  fuel : ∀ limit, l.fuel = some limit → pops ≤ limit
  stack : ∀ limit, l.stack = some limit → peak ≤ limit

/-- Such a search exceeds a limit, and this is the fault. -/
inductive Exceeded (l : Limits) (pops peak : Nat) : Fault → Prop
  | fuel {limit : Nat} : l.fuel = some limit → limit < pops → Exceeded l pops peak
      (.fuelExhausted limit)
  | stack {limit : Nat} : l.stack = some limit → limit < peak → Exceeded l pops peak
      (.stackExceeded limit)

/-- Each limit of `l'` is one of `l`, perhaps raised. -/
structure Relaxes (l' l : Limits) : Prop where
  fuel : ∀ limit', l'.fuel = some limit' → ∃ limit ≤ limit', l.fuel = some limit
  stack : ∀ limit', l'.stack = some limit' → ∃ limit ≤ limit', l.stack = some limit

variable {l l' : Limits} {pops pops' peak peak' : Nat} {fault : Fault}

theorem Exceeded.not_allow (h : l.Exceeded pops peak fault) : ¬l.Allow pops peak := by
  rintro ⟨hfuel, hstack⟩
  cases h with
  | fuel hlimit hlt => exact absurd (hfuel _ hlimit) (Nat.not_le.2 hlt)
  | stack hlimit hlt => exact absurd (hstack _ hlimit) (Nat.not_le.2 hlt)

theorem Exceeded.mono (h : l.Exceeded pops peak fault) (hpops : pops ≤ pops')
    (hpeak : peak ≤ peak') : l.Exceeded pops' peak' fault := by
  cases h with
  | fuel hlimit hlt => exact .fuel hlimit (hlt.trans_le hpops)
  | stack hlimit hlt => exact .stack hlimit (hlt.trans_le hpeak)

theorem Allow.relaxes (h : l.Allow pops peak) (hl : l'.Relaxes l) : l'.Allow pops peak := by
  constructor
  case fuel =>
    intro limit' hlimit'
    obtain ⟨limit, hle, hlimit⟩ := hl.fuel limit' hlimit'
    exact (h.fuel limit hlimit).trans hle
  case stack =>
    intro limit' hlimit'
    obtain ⟨limit, hle, hlimit⟩ := hl.stack limit' hlimit'
    exact (h.stack limit hlimit).trans hle

/-- The fuel suffices for one more path. -/
theorem lt_of_exhausted? {spent : Nat} (h : l.exhausted? spent = none) :
    ∀ limit, l.fuel = some limit → spent < limit := by
  intro limit hlimit
  by_contra hle
  have hsome : l.exhausted? spent = some limit :=
    exhausted?_eq_some_iff.2 ⟨hlimit, Nat.le_of_not_lt hle⟩
  rw [h] at hsome
  cases hsome

variable {α β : Type} {x : Except Fault α}

/-- What a search of the given cost gives under limits, if it gives `y` without: the same if they
allow it, and else the fault of a limit that is exceeded. -/
def Verdict (l : Limits) (pops peak : Nat) (x y : Except Fault α) : Prop :=
  l.Allow pops peak ∧ x = y ∨ ∃ fault, l.Exceeded pops peak fault ∧ x = .error fault

theorem Verdict.of_allow {y : Except Fault α} (h : l.Verdict pops peak x y)
    (hallow : l.Allow pops peak) : x = y := by
  rcases h with ⟨-, h⟩ | ⟨fault, hexceeded, -⟩
  · exact h
  · exact absurd hallow hexceeded.not_allow

/-- Only limits that allow the search let it have a result. -/
theorem Verdict.of_ok {y : Except Fault α} {v : α} (h : l.Verdict pops peak x y) (hx : x = .ok v) :
    l.Allow pops peak ∧ x = y := by
  rcases h with h | ⟨fault, -, hfault⟩
  · exact h
  · cases hx.symm.trans hfault

theorem Verdict.bind {v : α} {f : α → Except Fault β} {y : Except Fault β}
    (h : l.Verdict 0 peak x (.ok v)) (h' : l.Verdict pops peak' (f v) y) :
    l.Verdict pops (max peak peak') (x >>= f) y := by
  rcases h with ⟨hallow, rfl⟩ | ⟨fault, hexceeded, rfl⟩
  · rcases h' with ⟨hallow', hf⟩ | ⟨fault, hexceeded, hf⟩
    · refine .inl ⟨⟨hallow'.fuel, fun limit hlimit => ?_⟩, hf⟩
      exact Nat.max_le.2 ⟨hallow.stack limit hlimit, hallow'.stack limit hlimit⟩
    · exact .inr ⟨fault, hexceeded.mono le_rfl (Nat.le_max_right _ _), hf⟩
  · exact .inr ⟨fault, hexceeded.mono (Nat.zero_le _) (Nat.le_max_left _ _), rfl⟩

theorem allow_zero (l : Limits) : l.Allow 0 0 :=
  ⟨fun _ _ => Nat.zero_le _, fun _ _ => Nat.zero_le _⟩

theorem push_verdict (l : Limits) (p : Path) (pending : List Path) :
    l.Verdict 0 (pending.length + 1) (l.push p pending) (.ok (p :: pending)) := by
  cases hs : l.stack with
  | none => exact .inl ⟨⟨fun _ _ => Nat.zero_le _, by simp [hs]⟩, by simp [push, hs]⟩
  | some limit =>
    by_cases hle : limit ≤ pending.length
    · exact .inr ⟨_, .stack hs (Nat.lt_succ_of_le hle), by simp [push, hs, hle]⟩
    · refine .inl ⟨⟨fun _ _ => Nat.zero_le _, fun limit' hlimit' => ?_⟩, by simp [push, hs, hle]⟩
      obtain rfl := Option.some.inj (hs.symm.trans hlimit')
      omega

end Limits

namespace Matcher

variable {a : Automaton} {l : Limits} {text : String} {start : Nat} {p : Path}
  {rest : List Path} {machine machine' : Machine} {edge : Edge} {edges : List Edge}
  {result : Option Path}

/-- The event that an edge leaves behind, if it leaves one, when it is tried without limits. -/
def edgeEvent (a : Automaton) (text : String) (p : Path) (machine : Machine) (edge : Edge) :
    List Event :=
  (Event.ofAttempt p.last edge (attempt ⟨a, {}⟩ text machine.visited p.last edge)).toList

theorem spent_of_follow {m : Matcher} (h : m.follow text p machine edge = .ok machine') :
    machine'.spent = machine.spent := by
  unfold follow at h
  repeat' split at h
  all_goals cases h
  all_goals rfl

/-- An edge that is tried under limits has the same outcome, unless it adds a path for which there
is no room. What is pending afterwards is what the event says. -/
theorem follow_verdict (l : Limits) (h : follow ⟨a, {}⟩ text p machine edge = .ok machine') :
    l.Verdict 0 (Event.peak machine.pending.length (edgeEvent a text p machine edge))
        (follow ⟨a, l⟩ text p machine edge) (.ok machine') ∧
      ∀ events, Event.peak machine.pending.length (edgeEvent a text p machine edge ++ events) =
        max (Event.peak machine.pending.length (edgeEvent a text p machine edge))
          (Event.peak machine'.pending.length events) := by
  have hattempt : attempt ⟨a, l⟩ text machine.visited p.last edge =
      attempt ⟨a, {}⟩ text machine.visited p.last edge := rfl
  unfold follow at h ⊢
  rw [hattempt]
  unfold edgeEvent
  cases hcase : attempt ⟨a, {}⟩ text machine.visited p.last edge with
  | blocked | seen | refused =>
    rw [hcase] at h
    cases h
    exact ⟨.inl ⟨l.allow_zero, rfl⟩, fun events => (Nat.zero_max _).symm⟩
  | missing =>
    rw [hcase] at h
    cases h
  | entered offset =>
    rw [hcase] at h
    cases h
    refine ⟨?_, fun events => by simp [Event.ofAttempt, Event.peak]⟩
    rcases l.push_verdict (p.extend ⟨edge.target, offset⟩) machine.pending with
      ⟨hallow, hpush⟩ | ⟨fault, hexceeded, hpush⟩
    · exact .inl ⟨by simpa [Event.ofAttempt, Event.peak] using hallow, by simp [hpush]⟩
    · exact .inr ⟨fault, by simpa [Event.ofAttempt, Event.peak] using hexceeded, by simp [hpush]⟩

theorem edgeEvents_cons (h : follow ⟨a, {}⟩ text p machine edge = .ok machine') :
    edgeEvents ⟨a, {}⟩ text p machine (edge :: edges) =
      edgeEvent a text p machine edge ++ edgeEvents ⟨a, {}⟩ text p machine' edges := by
  rw [edgeEvents, h]
  rfl

/-- The same for edges that are tried one after the other. -/
theorem foldlM_follow_verdict (l : Limits)
    (h : edges.foldlM (follow ⟨a, {}⟩ text p) machine = .ok machine') :
    l.Verdict 0 (Event.peak machine.pending.length (edgeEvents ⟨a, {}⟩ text p machine edges))
        (edges.foldlM (follow ⟨a, l⟩ text p) machine) (.ok machine') ∧
      ∀ events,
        Event.peak machine.pending.length (edgeEvents ⟨a, {}⟩ text p machine edges ++ events) =
          max (Event.peak machine.pending.length (edgeEvents ⟨a, {}⟩ text p machine edges))
            (Event.peak machine'.pending.length events) := by
  induction edges generalizing machine with
  | nil =>
    cases h
    exact ⟨.inl ⟨l.allow_zero, rfl⟩, fun events => (Nat.zero_max _).symm⟩
  | cons edge edges ih =>
    obtain ⟨next, hnext, h⟩ := exists_of_foldlM_cons_eq_ok h
    obtain ⟨hfollow, hpeak⟩ := follow_verdict l hnext
    obtain ⟨hrest, hpeaks⟩ := ih h
    rw [List.foldlM_cons, edgeEvents_cons hnext]
    refine ⟨?_, fun events => ?_⟩
    · rw [hpeak]
      exact hfollow.bind hrest
    · rw [List.append_assoc, hpeak, hpeaks, hpeak, Nat.max_assoc]

theorem spent_of_foldlM {m : Matcher} (h : edges.foldlM (m.follow text p) machine = .ok machine') :
    machine'.spent = machine.spent :=
  foldlM_invariant (fun next => next.spent = machine.spent)
    (fun _ _ _ hs hnext => (spent_of_follow hnext).trans hs) rfl h

/-- The events of a run from a machine. -/
def runEvents (m : Matcher) (text : String) (start : Nat) (machine : Machine) : List Event :=
  match _h : m.turn text machine with
  | .halted _ => m.turnEvents text start machine
  | .next machine' => m.turnEvents text start machine ++ runEvents m text start machine'
termination_by m.weight text machine
decreasing_by exact weight_lt_of_turn _h

theorem runEvents_of_halted {m : Matcher} {outcome : Except Fault (Option Path)}
    (h : m.turn text machine = .halted outcome) :
    m.runEvents text start machine = m.turnEvents text start machine := by
  rw [runEvents]
  split <;> simp_all

theorem runEvents_of_next {m : Matcher} (h : m.turn text machine = .next machine') :
    m.runEvents text start machine =
      m.turnEvents text start machine ++ m.runEvents text start machine' := by
  rw [runEvents]
  split <;> simp_all

theorem traceRun_fst (m : Matcher) (text : String) (start : Nat) (machine : Machine)
    (events : Array Event) :
    (m.traceRun text start machine events).1.toList =
      events.toList ++ m.runEvents text start machine := by
  fun_induction traceRun m text start machine events with
  | case1 machine events result h =>
    rw [runEvents_of_halted h, Array.appendList_eq_append, Array.toList_appendList]
  | case2 machine events next h ih =>
    rw [ih, runEvents_of_next h, Array.appendList_eq_append, Array.toList_appendList,
      List.append_assoc]

/-- A turn that finds something has taken up a path to a final state. -/
theorem isFinal_of_turn {m : Matcher} (hp : machine.pending = p :: rest)
    (h : m.turn text machine = .halted (.ok result)) :
    m.automaton.isFinal p.last.state = true ∧ result = some p := by
  unfold turn at h
  rw [hp] at h
  repeat' split at h
  all_goals grind

/-- A turn that goes on tries the edges of a state that is not final, and the run goes on with what
comes of it. -/
theorem run_eq_bind {m : Matcher} (hp : machine.pending = p :: rest)
    (hx : m.limits.exhausted? machine.spent = none) (hf : m.automaton.isFinal p.last.state = false)
    (he : m.automaton.edges? p.last.state = some edges) :
    m.run text machine =
      edges.reverse.foldlM (m.follow text p) (machine.takeUp rest) >>= m.run text := by
  cases hfold : edges.reverse.foldlM (m.follow text p) (machine.takeUp rest) with
  | error fault =>
    have hturn : m.turn text machine = .halted (.error fault) := by
      simp [turn, hp, hx, hf, he, hfold]
    exact run_of_halted hturn
  | ok machine' =>
    have hturn : m.turn text machine = .next machine' := by
      simp [turn, hp, hx, hf, he, hfold]
    exact run_of_next hturn

section Events

variable (start : Nat) (hp : machine.pending = p :: rest)
include hp

theorem turnEvents_of_final (hf : a.isFinal p.last.state = true) :
    turnEvents ⟨a, {}⟩ text start machine = [.pop p, .accept p] := by
  simp [turnEvents, hp, Limits.exhausted?, hf]

theorem turnEvents_of_edges (hf : a.isFinal p.last.state = false)
    (he : a.edges? p.last.state = some edges) :
    turnEvents ⟨a, {}⟩ text start machine =
      .pop p :: edgeEvents ⟨a, {}⟩ text p (machine.takeUp rest) edges.reverse := by
  simp [turnEvents, hp, Limits.exhausted?, hf, he]

theorem popCount_turnEvents : Event.popCount (turnEvents ⟨a, {}⟩ text start machine) = 1 := by
  rw [Event.popCount, popped_turnEvents hp rfl]
  rfl

end Events

/-- A turn that the limits forbid, there being a path to take up. -/
theorem verdict_of_exhausted (hp : machine.pending = p :: rest) {limit pops peak : Nat}
    (hx : l.exhausted? machine.spent = some limit) (hpops : 0 < pops) :
    l.Verdict (machine.spent + pops) peak (run ⟨a, l⟩ text machine) (.ok result) := by
  obtain ⟨hfuel, hle⟩ := Limits.exhausted?_eq_some_iff.1 hx
  have hturn : turn ⟨a, l⟩ text machine = .halted (.error (.fuelExhausted limit)) := by
    simp [turn, hp, hx]
  exact .inr ⟨_, .fuel hfuel (by omega), run_of_halted hturn⟩

/-- The last turn of a search. -/
theorem verdict_of_halted (start : Nat) (h : turn ⟨a, {}⟩ text machine = .halted (.ok result))
    (hspent : ∀ limit, l.fuel = some limit → machine.spent ≤ limit) :
    l.Verdict (machine.spent + Event.popCount (turnEvents ⟨a, {}⟩ text start machine))
      (Event.peak machine.pending.length (turnEvents ⟨a, {}⟩ text start machine))
      (run ⟨a, l⟩ text machine) (.ok result) := by
  cases hp : machine.pending with
  | nil =>
    have hevents : turnEvents ⟨a, {}⟩ text start machine = [.reject start] := by
      simp [turnEvents, hp]
    have hturn := Automaton.turn_of_nil ⟨a, l⟩ text hp
    have hresult := Automaton.turn_of_nil ⟨a, {}⟩ text hp
    rw [hevents, run_of_halted hturn, ← run_of_halted hresult, run_of_halted h]
    exact .inl ⟨⟨hspent, fun _ _ => Nat.zero_le _⟩, rfl⟩
  | cons p rest =>
    rw [popCount_turnEvents start hp]
    cases hx : l.exhausted? machine.spent with
    | some limit => exact verdict_of_exhausted hp hx Nat.one_pos
    | none =>
      obtain ⟨hf, rfl⟩ := isFinal_of_turn hp h
      have hturn : turn ⟨a, l⟩ text machine = .halted (.ok (some p)) := by
        have hf : a.isFinal p.last.state = true := hf
        simp [turn, hp, hx, hf]
      rw [turnEvents_of_final start hp hf, run_of_halted hturn]
      exact .inl ⟨⟨Limits.lt_of_exhausted? hx, fun _ _ => Nat.zero_le _⟩, rfl⟩

/-- A turn that the search goes on after. -/
theorem verdict_of_next {pops : Nat} {events : List Event}
    (h : turn ⟨a, {}⟩ text machine = .next machine') (start : Nat)
    (hrest : (∀ limit, l.fuel = some limit → machine'.spent ≤ limit) →
      l.Verdict (machine'.spent + pops) (Event.peak machine'.pending.length events)
        (run ⟨a, l⟩ text machine') (.ok result)) :
    l.Verdict (machine.spent + (1 + pops))
      (Event.peak machine.pending.length (turnEvents ⟨a, {}⟩ text start machine ++ events))
      (run ⟨a, l⟩ text machine) (.ok result) := by
  obtain ⟨p, rest, edges, hp, he, hfold⟩ := turn_eq_next h
  cases hx : l.exhausted? machine.spent with
  | some limit => exact verdict_of_exhausted hp hx (by omega)
  | none =>
    have hf : a.isFinal p.last.state = false := by
      cases hf : a.isFinal p.last.state with
      | false => rfl
      | true => simp [Automaton.turn_of_final text hp hf] at h
    have hbind : run ⟨a, l⟩ text machine = edges.reverse.foldlM (follow ⟨a, l⟩ text p)
        (machine.takeUp rest) >>= run ⟨a, l⟩ text := run_eq_bind hp hx hf he
    have hnext : machine'.spent = machine.spent + 1 := spent_of_foldlM hfold
    obtain ⟨hedges, hpeak⟩ := foldlM_follow_verdict l hfold
    have hverdict := hedges.bind (hrest (hnext ▸ Limits.lt_of_exhausted? hx))
    rw [turnEvents_of_edges start hp hf he, hbind, hp, ← Nat.add_assoc, ← hnext]
    exact (hpeak events).symm ▸ hverdict

/-- The rest of a search under limits that has not taken up too many paths so far. -/
theorem run_verdict (l : Limits) (start : Nat) (hrun : run ⟨a, {}⟩ text machine = .ok result)
    (hspent : ∀ limit, l.fuel = some limit → machine.spent ≤ limit) :
    l.Verdict (machine.spent + Event.popCount (runEvents ⟨a, {}⟩ text start machine))
      (Event.peak machine.pending.length (runEvents ⟨a, {}⟩ text start machine))
      (run ⟨a, l⟩ text machine) (.ok result) := by
  fun_induction runEvents ⟨a, {}⟩ text start machine with
  | case1 machine outcome hturn =>
    obtain rfl := (run_of_halted hturn).symm.trans hrun
    exact verdict_of_halted start hturn hspent
  | case2 machine machine' hturn ih =>
    obtain ⟨p, rest, edges, hp, -, -⟩ := turn_eq_next hturn
    rw [Event.popCount_append, popCount_turnEvents start hp]
    exact verdict_of_next hturn start (ih ((run_of_next hturn).symm.trans hrun))

/-- A search begins with one pending path. -/
theorem machineAt_verdict (l : Limits) (hc : a.Closed) (start : Nat) :
    l.Verdict 0 1 (machineAt ⟨a, l⟩ start) (.ok (a.machineAt start)) := by
  have hpos := hc.pos.ne'
  rcases l.push_verdict ⟨⟨0, start⟩, []⟩ [] with ⟨hallow, hpush⟩ | ⟨fault, hexceeded, hpush⟩
  · exact .inl ⟨hallow, by simp [machineAt, Automaton.machineAt, hpos, hpush]⟩
  · exact .inr ⟨fault, hexceeded, by simp [machineAt, hpos, hpush]⟩

/-- A search under limits, and the trace of the same search without. -/
theorem exec_verdict (l : Limits) (hc : a.Closed) (h : exec ⟨a, {}⟩ text start = .ok result) :
    ∃ events, traceExec ⟨a, {}⟩ text start = (events, .ok result) ∧
      l.Verdict (Event.popCount events) (Event.peak 0 events) (exec ⟨a, l⟩ text start)
        (.ok result) := by
  have hplain : machineAt ⟨a, {}⟩ start = .ok (a.machineAt start) := Automaton.machineAt_eq hc start
  have hrun : run ⟨a, {}⟩ text (a.machineAt start) = .ok result := by
    rw [exec, hplain] at h
    exact h
  have hevents : (traceExec ⟨a, {}⟩ text start).1 =
      .scan start :: runEvents ⟨a, {}⟩ text start (a.machineAt start) := by
    simp [traceExec, traceExecInto, hplain, traceRun_fst]
  refine ⟨_, Prod.ext hevents ((traceExec_snd _ _ _).trans h), ?_⟩
  have hverdict := run_verdict l start hrun fun _ _ => Nat.zero_le _
  rw [show (a.machineAt start).spent = 0 from rfl, Nat.zero_add] at hverdict
  exact (machineAt_verdict l hc start).bind hverdict

end Matcher

namespace Automaton

variable {a : Automaton}

/-- A search under limits, from wherever it starts, and the trace of the same search without.
Limits that allow as many paths to be taken up and to be pending as there are in the trace do not
change the result. Other limits are hit, and the fault names one that the trace exceeds. So a
result stays the same when limits are raised or removed. -/
theorem exec_under_limits (hpos : 0 < a.stateCount) (hd : a.danglingIds = []) (limits : Limits)
    (text : String) (start : Nat) :
    ∃ events result, Matcher.traceExec ⟨a, {}⟩ text start = (events, .ok result) ∧
      (limits.Allow (Event.popCount events) (Event.peak 0 events) →
        Matcher.exec ⟨a, limits⟩ text start = .ok result) ∧
      (¬limits.Allow (Event.popCount events) (Event.peak 0 events) →
        ∃ fault, limits.Exceeded (Event.popCount events) (Event.peak 0 events) fault ∧
          Matcher.exec ⟨a, limits⟩ text start = .error fault) ∧
      ∀ limits' : Limits, limits'.Relaxes limits →
        ∀ found, Matcher.exec ⟨a, limits⟩ text start = .ok found →
          Matcher.exec ⟨a, limits'⟩ text start = .ok found := by
  have hc := closed_of_danglingIds hpos hd
  obtain ⟨result, hexec, -⟩ := exec_accepting text hc start
  obtain ⟨events, htrace, -⟩ := Matcher.exec_verdict {} hc hexec
  have hverdict (l : Limits) : l.Verdict (Event.popCount events) (Event.peak 0 events)
      (Matcher.exec ⟨a, l⟩ text start) (.ok result) := by
    obtain ⟨events', htrace', h⟩ := Matcher.exec_verdict l hc hexec
    rwa [(Prod.mk.inj (htrace'.symm.trans htrace)).1] at h
  refine ⟨events, result, htrace, (hverdict limits).of_allow, ?_, fun limits' hlimits found h => ?_⟩
  · exact fun hallow => (hverdict limits).resolve_left fun h => hallow h.1
  · obtain ⟨hallow, heq⟩ := (hverdict limits).of_ok h
    rw [(hverdict limits').of_allow (hallow.relaxes hlimits), ← heq, h]

/-- Nine paths are taken up, with three pending at the peak. -/
theorem exec_under_limits_tangle :
    0 < tangle.stateCount ∧ tangle.danglingIds = [] ∧
      Matcher.exec ⟨tangle, ⟨some 8, some 3⟩⟩ "1éa" 1 = .error (.fuelExhausted 8) ∧
      Matcher.exec ⟨tangle, ⟨some 9, some 2⟩⟩ "1éa" 1 = .error (.stackExceeded 2) ∧
      Limits.Relaxes {} ⟨some 9, some 3⟩ ∧
      ∃ path, Matcher.exec ⟨tangle, ⟨some 9, some 3⟩⟩ "1éa" 1 = .ok (some path) ∧
        Matcher.exec ⟨tangle, {}⟩ "1éa" 1 = .ok (some path) := by
  have hpos : 0 < tangle.stateCount := by decide
  have hd : tangle.danglingIds = [] := by decide
  have hfuel : Matcher.exec ⟨tangle, ⟨some 8, some 3⟩⟩ "1éa" 1 = .error (.fuelExhausted 8) :=
    Matcher.exec_of_execWithin (n := 10) (by decide +kernel)
  have hstack : Matcher.exec ⟨tangle, ⟨some 9, some 2⟩⟩ "1éa" 1 = .error (.stackExceeded 2) :=
    Matcher.exec_of_execWithin (n := 10) (by decide +kernel)
  have hexec : Matcher.exec ⟨tangle, ⟨some 9, some 3⟩⟩ "1éa" 1 =
      .ok (some ⟨⟨3, 4⟩, [⟨2, 4⟩, ⟨1, 3⟩, ⟨2, 3⟩, ⟨1, 1⟩, ⟨0, 1⟩]⟩) :=
    Matcher.exec_of_execWithin (n := 10) (by decide +kernel)
  have hrelaxes : Limits.Relaxes {} ⟨some 9, some 3⟩ := ⟨nofun, nofun⟩
  obtain ⟨_, _, _, _, _, hraise⟩ := exec_under_limits hpos hd ⟨some 9, some 3⟩ "1éa" 1
  exact ⟨hpos, hd, hfuel, hstack, hrelaxes, _, hexec, hraise {} hrelaxes _ hexec⟩

end Automaton

end PatternAutomata
