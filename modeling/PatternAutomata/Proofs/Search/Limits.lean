import PatternAutomata.Proofs.Search.Acceptance
import PatternAutomata.Proofs.Steps

/-!
# Searches under limits

A search under limits takes the turns of the search without them, until one of the limits stops
it. So it gives the same result, or the fault of a limit that is exceeded somewhere on the way.

The count of paths need not grow beyond the limit on it. A machine may count them with a word that
stays where it is once it is at its greatest.

## Main definitions

* `Automaton.Arises` — the machines of a search without limits.
* `Limits.Forbids` — a limit is exceeded by a machine.
* `Limits.AtLeast` — the limits are not below a number.
* `Machine.saturate`, `Matcher.saturatingExec` — a count that stops, and a search with it.

## Main statements

* `Matcher.exec_eq_or_forbidden` — a search under limits and the same search without.
* `Matcher.exec_eq_of_atLeast` — limits that leave room for every visit change nothing.
* `Matcher.saturatingExec_eq` — a search whose count of paths stops gives the same result.
-/
namespace PatternAutomata

/-- The machines of a search from `start` without limits. With each stand the visits that have been
taken up before, the latest first. -/
inductive Automaton.Arises (a : Automaton) (text : String) (start : Nat) :
    List Visit → Machine → Prop
  | init : Arises a text start [] (a.machineAt start)
  | turn {taken : List Visit} {machine : Machine} {p : Path} {rest : List Path} :
      Arises a text start taken machine → machine.pending = p :: rest →
      a.isFinal p.last.state = false →
      Arises a text start (p.last :: taken) (a.afterTurn text machine p rest)

/-- The machine exceeds a limit, and this is the fault. -/
inductive Limits.Forbids (l : Limits) (machine : Machine) : Fault → Prop
  | fuel {limit : Nat} : l.fuel = some limit → machine.pending ≠ [] → limit ≤ machine.spent →
      Forbids l machine (.fuelExhausted limit)
  | stack {limit : Nat} : l.stack = some limit → limit < machine.pending.length →
      Forbids l machine (.stackExceeded limit)

/-- Neither limit is below `n`. -/
structure Limits.AtLeast (l : Limits) (n : Nat) : Prop where
  fuel : ∀ limit, l.fuel = some limit → n ≤ limit
  stack : ∀ limit, l.stack = some limit → n ≤ limit

theorem Limits.exhausted?_eq_some_iff {l : Limits} {spent limit : Nat} :
    l.exhausted? spent = some limit ↔ l.fuel = some limit ∧ limit ≤ spent := by
  simp [exhausted?, Option.filter_eq_some_iff]

namespace Automaton

variable {a : Automaton} {text : String} {start : Nat} {taken : List Visit} {machine : Machine}

theorem Arises.ready (hc : a.Closed) (h : a.Arises text start taken machine) :
    a.Ready machine := by
  induction h with
  | init => exact ready_machineAt hc start
  | turn _ hp _ ih => exact ih.afterTurn hc hp

@[simp] theorem spent_afterTurn (p : Path) (rest : List Path) :
    (a.afterTurn text machine p rest).spent = machine.spent + 1 := by
  have hexplore (edges : List Edge) (machine : Machine) :
      (edges.foldr (Machine.explore a.flags text p) machine).spent = machine.spent := by
    induction edges with
    | nil => rfl
    | cons e edges ih =>
      rw [List.foldr_cons]
      rcases Machine.explore_cases a.flags text p e
        (edges.foldr (Machine.explore a.flags text p) machine) with h | ⟨w, -, -, h⟩ <;>
      rw [h] <;> exact ih
  exact hexplore _ _

theorem Arises.spent_eq (h : a.Arises text start taken machine) :
    machine.spent = taken.length := by
  induction h with
  | init => rfl
  | turn _ _ _ ih => simp [ih]

end Automaton

namespace Matcher

variable {m : Matcher} {text : String} {start : Nat} {taken : List Visit} {machine : Machine}

/-- A turn under limits is a turn without, or it meets a limit: that of the visits before it
begins, or that of the pending paths while it goes on. -/
theorem turn_cases (text : String) (hc : m.automaton.Closed) (hr : m.automaton.Ready machine) :
    m.turn text machine = turn ⟨m.automaton, {}⟩ text machine ∨
      (∃ fault, m.limits.Forbids machine fault ∧
        m.turn text machine = .halted (.error fault)) ∨
      ∃ p rest fault, machine.pending = p :: rest ∧ m.automaton.isFinal p.last.state = false ∧
        m.limits.Forbids (m.automaton.afterTurn text machine p rest) fault ∧
        m.turn text machine = .halted (.error fault) := by
  cases hp : machine.pending with
  | nil => exact .inl ((Automaton.turn_of_nil _ _ hp).trans (Automaton.turn_of_nil _ _ hp).symm)
  | cons p rest =>
    cases hx : m.limits.exhausted? machine.spent with
    | some limit =>
      obtain ⟨hfuel, hle⟩ := Limits.exhausted?_eq_some_iff.1 hx
      exact .inr (.inl ⟨_, .fuel hfuel (by simp [hp]) hle, by simp [turn, hp, hx]⟩)
    | none =>
      cases hf : m.automaton.isFinal p.last.state with
      | true =>
        left
        rw [Automaton.turn_of_final text hp hf]
        simp [turn, hp, hx, hf]
      | false =>
        have hlt := hr.state_lt p (hp ▸ List.mem_cons_self)
        have ht : ∀ e ∈ m.automaton.edgesOf p.last.state,
            e.target < (machine.takeUp rest).visited.size := hr.target_lt hc
        rcases foldlM_follow_cases m text p ht with h | ⟨limit, hlimit, hexceeds, h⟩
        · left
          rw [Automaton.turn_eq_afterTurn text hc hr hp hf]
          simp [turn, hp, hx, hf, Automaton.edges?_eq_some hlt, h, Automaton.afterTurn]
        · refine .inr (.inr ⟨p, rest, _, rfl, hf, .stack hlimit hexceeds, ?_⟩)
          simp [turn, hp, hx, hf, Automaton.edges?_eq_some hlt, h]

/-- What a turn of a search under limits goes on with arises in the search without. -/
theorem arises_of_turn (hc : m.automaton.Closed) {machine' : Machine}
    (h : m.automaton.Arises text start taken machine)
    (hturn : m.turn text machine = .next machine') :
    ∃ p rest, machine.pending = p :: rest ∧
      m.automaton.Arises text start (p.last :: taken) machine' := by
  have hr := h.ready hc
  have hplain : turn ⟨m.automaton, {}⟩ text machine = .next machine' := by
    rcases turn_cases text hc hr with hsame | ⟨_, _, hfault⟩ | ⟨_, _, _, _, _, _, hfault⟩
    · exact hsame.symm.trans hturn
    · simp [hfault] at hturn
    · simp [hfault] at hturn
  cases hp : machine.pending with
  | nil => simp [Automaton.turn_of_nil _ _ hp] at hplain
  | cons p rest =>
    cases hf : m.automaton.isFinal p.last.state with
    | true => simp [Automaton.turn_of_final text hp hf] at hplain
    | false =>
      rw [Automaton.turn_eq_afterTurn text hc hr hp hf] at hplain
      obtain rfl := Turn.next.inj hplain
      exact ⟨p, rest, rfl, h.turn hp hf⟩

theorem run_eq_or_forbidden (hc : m.automaton.Closed)
    (h : m.automaton.Arises text start taken machine) :
    m.run text machine = run ⟨m.automaton, {}⟩ text machine ∨
      ∃ taken' machine' fault, m.automaton.Arises text start taken' machine' ∧
        m.limits.Forbids machine' fault ∧ m.run text machine = .error fault := by
  induction hn : m.weight text machine using Nat.strong_induction_on
    generalizing taken machine with
  | _ n ih =>
    subst hn
    rcases turn_cases text hc (h.ready hc) with
      hsame | ⟨fault, hforbids, hturn⟩ | ⟨p, rest, fault, hp, hf, hforbids, hturn⟩
    · cases hturn : m.turn text machine with
      | halted result =>
        left
        rw [run_of_halted hturn, run_of_halted (hsame.symm.trans hturn)]
      | next machine' =>
        obtain ⟨p, rest, -, harises⟩ := arises_of_turn hc h hturn
        rw [run_of_next hturn, run_of_next (hsame.symm.trans hturn)]
        exact ih _ (weight_lt_of_turn hturn) harises rfl
    · exact .inr ⟨taken, machine, fault, h, hforbids, run_of_halted hturn⟩
    · exact .inr ⟨_, _, fault, h.turn hp hf, hforbids, run_of_halted hturn⟩

/-- A search under limits begins like one without, if there is room for a path. -/
theorem machineAt_cases (hc : m.automaton.Closed) (start : Nat) :
    m.machineAt start = .ok (m.automaton.machineAt start) ∨
      ∃ fault, m.limits.Forbids (m.automaton.machineAt start) fault ∧
        m.machineAt start = .error fault := by
  have hpos := hc.pos.ne'
  rcases m.limits.push_cases ⟨⟨0, start⟩, []⟩ [] with hpush | ⟨limit, hlimit, hlt, hpush⟩
  · left
    simp [machineAt, Automaton.machineAt, hpos, hpush]
  · exact .inr ⟨_, .stack hlimit hlt, by simp [machineAt, hpos, hpush]⟩

/-- A search under limits gives the result of the search without, or the fault of a limit that is
exceeded by a machine of that search. -/
theorem exec_eq_or_forbidden (hc : m.automaton.Closed) (text : String) (start : Nat) :
    m.exec text start = exec ⟨m.automaton, {}⟩ text start ∨
      ∃ taken machine fault, m.automaton.Arises text start taken machine ∧
        m.limits.Forbids machine fault ∧ m.exec text start = .error fault := by
  rcases machineAt_cases hc start with hstart | ⟨fault, hforbids, hstart⟩
  · rw [exec, exec, hstart, Automaton.machineAt_eq hc]
    exact run_eq_or_forbidden hc .init
  · refine .inr ⟨[], _, _, .init, hforbids, ?_⟩
    rw [exec, hstart]
    rfl

/-- Limits are never met that leave room for all visits of the search without them. -/
theorem exec_eq_of_atLeast (hc : m.automaton.Closed) {n : Nat}
    (hbound : ∀ taken machine, m.automaton.Arises text start taken machine →
      taken.length + machine.pending.length ≤ n)
    (hl : m.limits.AtLeast n) : m.exec text start = exec ⟨m.automaton, {}⟩ text start := by
  rcases exec_eq_or_forbidden hc text start with h | ⟨taken, machine, fault, h, hforbids, -⟩
  · exact h
  · exfalso
    have hle := hbound taken machine h
    have hspent := h.spent_eq
    cases hforbids with
    | fuel hlimit hne hspends =>
      have hpending := List.length_pos_iff.2 hne
      have := hl.fuel _ hlimit
      omega
    | stack hlimit hexceeds =>
      have := hl.stack _ hlimit
      omega

end Matcher

/-! ### A count that stops -/

/-- The machine, its count of paths at most `top`. -/
def Machine.saturate (machine : Machine) (top : Nat) : Machine :=
  { machine with spent := min machine.spent top }

/-- What a turn leads to, the count of paths at most `top`. -/
def Turn.saturate (turn : Turn) (top : Nat) : Turn :=
  match turn with
  | .halted result => .halted result
  | .next machine => .next (machine.saturate top)

theorem Machine.saturate_takeUp (machine : Machine) (top : Nat) (rest : List Path) :
    ((machine.saturate top).takeUp rest).saturate top = (machine.takeUp rest).saturate top := by
  have hspent : min (min machine.spent top + 1) top = min (machine.spent + 1) top := by omega
  exact congrArg (Machine.mk rest machine.visited) hspent

theorem Turn.eq_halted_of_saturate {turn : Turn} {top : Nat} {result : Except Fault (Option Path)}
    (h : turn.saturate top = .halted result) : turn = .halted result := by
  cases turn with
  | halted => exact h
  | next => cases h

theorem Turn.exists_of_saturate {turn : Turn} {top : Nat} {machine : Machine}
    (h : turn.saturate top = .next machine) :
    ∃ machine', turn = .next machine' ∧ machine'.saturate top = machine := by
  cases turn with
  | halted => cases h
  | next machine' => exact ⟨machine', rfl, Turn.next.inj h⟩

/-- No limit up to `top` tells a count from one that stops there. -/
theorem Limits.exhausted?_min {l : Limits} {top : Nat}
    (htop : ∀ limit, l.fuel = some limit → limit ≤ top) (spent : Nat) :
    l.exhausted? (min spent top) = l.exhausted? spent := by
  refine Option.ext fun limit => ?_
  rw [exhausted?_eq_some_iff, exhausted?_eq_some_iff]
  refine and_congr_right fun hlimit => ?_
  rw [Nat.le_min, and_iff_left (htop limit hlimit)]

namespace Matcher

/-- Turns the machine until it halts. Its count of paths stops at `top`. -/
def saturatingRun (m : Matcher) (text : String) (top : Nat) (machine : Machine) :
    Except Fault (Option Path) :=
  match _h : m.turn text machine with
  | .halted result => result
  | .next machine' => saturatingRun m text top (machine'.saturate top)
termination_by m.weight text machine
decreasing_by
  have hlt := weight_lt_of_turn _h
  exact hlt

/-- A search from `start` whose count of paths stops at `top`. -/
def saturatingExec (m : Matcher) (text : String) (top start : Nat) :
    Except Fault (Option Path) := do
  m.saturatingRun text top (← m.machineAt start)

variable {m : Matcher} {text : String} {top : Nat} {machine machine' : Machine} {p : Path}

theorem saturatingRun_of_halted {result : Except Fault (Option Path)}
    (h : m.turn text machine = .halted result) : m.saturatingRun text top machine = result := by
  rw [saturatingRun]
  split <;> simp_all

theorem saturatingRun_of_next (h : m.turn text machine = .next machine') :
    m.saturatingRun text top machine = m.saturatingRun text top (machine'.saturate top) := by
  rw [saturatingRun]
  split <;> simp_all

/-- Edges are tried without regard to the count. -/
theorem follow_saturate (machine : Machine) (edge : Edge) :
    m.follow text p (machine.saturate top) edge =
      (m.follow text p machine edge).map (·.saturate top) := by
  simp only [follow, Machine.saturate]
  cases m.attempt text machine.visited p.last edge with
  | entered offset =>
    dsimp only
    cases m.limits.push (p.extend ⟨edge.target, offset⟩) machine.pending <;> rfl
  | _ => rfl

theorem foldlM_follow_saturate (machine : Machine) (edges : List Edge) :
    edges.foldlM (m.follow text p) (machine.saturate top) =
      (edges.foldlM (m.follow text p) machine).map (·.saturate top) :=
  foldlM_map_state (f := (·.saturate top)) follow_saturate edges machine

/-- Whether the count has stopped before a turn makes no difference to it. -/
theorem turn_saturate (text : String) (htop : ∀ limit, m.limits.fuel = some limit → limit ≤ top)
    (machine : Machine) :
    (m.turn text (machine.saturate top)).saturate top = (m.turn text machine).saturate top := by
  have hfold (p : Path) (rest : List Path) (edges : List Edge) :
      (edges.foldlM (m.follow text p) ((machine.saturate top).takeUp rest)).map (·.saturate top) =
        (edges.foldlM (m.follow text p) (machine.takeUp rest)).map (·.saturate top) := by
    rw [← foldlM_follow_saturate, Machine.saturate_takeUp, foldlM_follow_saturate]
  have hpending : (machine.saturate top).pending = machine.pending := rfl
  have hspent : m.limits.exhausted? (machine.saturate top).spent =
      m.limits.exhausted? machine.spent := Limits.exhausted?_min htop machine.spent
  unfold turn
  rw [hpending, hspent]
  split
  case h_1 => rfl
  case h_2 p rest _ =>
    split
    case h_1 => rfl
    split
    case isTrue => rfl
    split
    case h_1 => rfl
    case h_2 edges _ =>
      have hfold := hfold p rest edges.reverse
      generalize edges.reverse.foldlM (m.follow text p) (machine.takeUp rest) = x at hfold ⊢
      generalize edges.reverse.foldlM (m.follow text p) ((machine.saturate top).takeUp rest) = y
        at hfold ⊢
      cases x <;> cases y <;> simp_all [Except.map, Turn.saturate]

theorem saturatingRun_saturate (text : String)
    (htop : ∀ limit, m.limits.fuel = some limit → limit ≤ top) (machine : Machine) :
    m.saturatingRun text top (machine.saturate top) = m.run text machine := by
  fun_induction run m text machine with
  | case1 machine result hturn =>
    have hsame := turn_saturate text htop machine
    rw [hturn] at hsame
    exact saturatingRun_of_halted (Turn.eq_halted_of_saturate hsame)
  | case2 machine machine' hturn ih =>
    have hsame := turn_saturate text htop machine
    rw [hturn] at hsame
    obtain ⟨next, hnext, heq⟩ := Turn.exists_of_saturate hsame
    rw [saturatingRun_of_next hnext, heq, ih]

/-- A search whose count of paths stops at `top` gives the same result as one that counts them all,
if its fuel is limited to no more than `top`, or not limited. -/
theorem saturatingExec_eq (htop : ∀ limit, m.limits.fuel = some limit → limit ≤ top)
    (text : String) (start : Nat) : m.saturatingExec text top start = m.exec text start := by
  unfold saturatingExec exec
  cases hstart : m.machineAt start with
  | error fault => rfl
  | ok machine =>
    have hspent : machine.spent = 0 := by
      unfold machineAt at hstart
      repeat' split at hstart
      all_goals cases hstart
      rfl
    have hzero : machine.saturate top = machine := by
      rw [Machine.saturate, hspent, Nat.zero_min, ← hspent]
    have hrun := saturatingRun_saturate text htop machine
    rw [hzero] at hrun
    exact hrun

end Matcher

end PatternAutomata
