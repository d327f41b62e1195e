import Mathlib.Data.List.Infix
import PatternAutomata.Proofs.Search.Turn
import PatternAutomata.Proofs.Steps

/-!
# One trail for all pending paths

A search need not hold the path of every pending visit. It can hold a single trail of visits, and
with each pending visit only how many visits precede it. When a visit is taken up the trail is cut
back to as many, and what is cut off belongs to branches that have been given up.

What makes this right is that the visits before every pending one are the beginning of the trail,
and that a visit taken up later is never preceded by more visits than one taken up before it.

## Main definitions

* `Frame`, `TrailMachine` — pending visits, and a machine with a single trail.
* `Matcher.trailTurn`, `Matcher.trailExec` — its turns, and a search with it.
* `Backed` — the trail begins with what precedes each pending visit.

## Main statement

* `Matcher.trailExec_eq` — such a search halts with the visits of the path that `exec` gives.
-/
namespace PatternAutomata

/-- A pending visit, and how many visits precede it. -/
structure Frame where
  visit : Visit
  step : Nat

structure TrailMachine where
  /-- The visits still to be taken up, the next one first. -/
  pending : List Frame
  /-- The visits taken up on the way to the last one, and that one itself. -/
  trail : List Visit
  visited : Visited
  /-- How many visits have been taken up. -/
  spent : Nat

/-- The machine once a visit has been taken up and `rest` is left. -/
def TrailMachine.takeUp (t : TrailMachine) (f : Frame) (rest : List Frame) : TrailMachine :=
  { t with
    pending := rest
    trail := t.trail.take f.step ++ [f.visit]
    spent := t.spent + 1 }

/-- What a turn of a machine with a trail leads to. -/
inductive TrailTurn where
  | halted (result : Except Fault (Option (List Visit)))
  | next (t : TrailMachine)

/-- The fault if there is no room for a visit beside `count` others. -/
def Limits.full? (l : Limits) (count : Nat) : Option Fault :=
  (l.stack.filter (· ≤ count)).map .stackExceeded

namespace Matcher

variable (m : Matcher) (text : String)

/-- The machine after trying `edge` behind the visit `f`. -/
def trailFollow (f : Frame) (t : TrailMachine) (edge : Edge) : Except Fault TrailMachine :=
  match m.attempt text t.visited f.visit edge with
  | .blocked _ | .seen | .refused => .ok t
  | .missing => .error (.missingState edge.target)
  | .entered offset =>
    match m.limits.full? t.pending.length with
    | some fault => .error fault
    | none =>
      .ok { t with
        pending := ⟨⟨edge.target, offset⟩, f.step + 1⟩ :: t.pending
        visited := record t.visited edge offset }

/-- One turn: takes up the first pending visit. -/
def trailTurn (t : TrailMachine) : TrailTurn :=
  match t.pending with
  | [] => .halted (.ok none)
  | f :: rest =>
    match m.limits.exhausted? t.spent with
    | some limit => .halted (.error (.fuelExhausted limit))
    | none =>
      if m.automaton.isFinal f.visit.state then .halted (.ok (some (t.takeUp f rest).trail))
      else
        match m.automaton.edges? f.visit.state with
        | none => .halted (.error (.missingState f.visit.state))
        | some edges =>
          match edges.reverse.foldlM (m.trailFollow text f) (t.takeUp f rest) with
          | .error fault => .halted (.error fault)
          | .ok t => .next t

/-- What the machine halts with, if it halts within `n` turns. -/
def trailWithin : Nat → TrailMachine → Option (Except Fault (Option (List Visit)))
  | 0, _ => none
  | n + 1, t =>
    match m.trailTurn text t with
    | .halted result => some result
    | .next t => trailWithin n t

/-- A search from `start` with a single trail, if it halts within `n` turns. -/
def trailExec (start n : Nat) : Option (Except Fault (Option (List Visit))) :=
  if m.automaton.stateCount = 0 then some (.error (.missingState 0))
  else
    match m.limits.full? 0 with
    | some fault => some (.error fault)
    | none =>
      m.trailWithin text n
        { pending := [⟨⟨0, start⟩, 0⟩]
          trail := []
          visited := (Visited.empty m.automaton.stateCount).insert 0 start
          spent := 0 }

end Matcher

/-- The last visit of a path, with how many visits precede it. -/
def Path.frame (p : Path) : Frame :=
  ⟨p.last, p.depth⟩

/-- The machine with a single trail in place of the pending paths. -/
def Machine.onTrail (machine : Machine) (trail : List Visit) : TrailMachine :=
  ⟨machine.pending.map Path.frame, trail, machine.visited, machine.spent⟩

/-- The trail begins with the visits that precede the end of each of the pending paths, and the
paths are the longer the sooner they are taken up. -/
structure Backed (trail : List Visit) (pending : List Path) : Prop where
  isPrefix : ∀ p ∈ pending, p.earlier.reverse <+: trail
  depth_le : pending.Pairwise fun p q => q.depth ≤ p.depth

namespace Backed

variable {trail : List Visit} {p : Path} {rest : List Path}

/-- Cutting back the trail leaves the path that is taken up. -/
theorem take_eq (h : Backed trail (p :: rest)) : trail.take p.depth ++ [p.last] = p.visits := by
  have hbegins := h.isPrefix p List.mem_cons_self
  have htake : trail.take p.earlier.reverse.length = p.earlier.reverse :=
    (List.prefix_iff_eq_take.1 hbegins).symm
  rw [List.length_reverse] at htake
  simp [Path.depth, Path.visits, htake]

/-- Cutting back the trail leaves enough of it for the paths that are still pending. -/
theorem takeUp (h : Backed trail (p :: rest)) : Backed p.visits rest := by
  obtain ⟨hbegins, hdepth⟩ := h
  obtain ⟨hle, hrest⟩ := List.pairwise_cons.1 hdepth
  refine ⟨fun q hq => ?_, hrest⟩
  have hlength : q.earlier.reverse.length ≤ p.earlier.reverse.length := by
    simpa [Path.depth] using hle q hq
  have hq : q.earlier.reverse <+: p.earlier.reverse :=
    List.prefix_of_prefix_length_le (hbegins q (List.mem_cons_of_mem _ hq))
      (hbegins p List.mem_cons_self) hlength
  exact hq.trans (by simp [Path.visits])

theorem extend (h : Backed p.visits rest) (w : Visit) : Backed p.visits (p.extend w :: rest) := by
  refine ⟨List.forall_mem_cons.2 ⟨List.prefix_rfl, h.isPrefix⟩,
    List.pairwise_cons.2 ⟨fun q hq => ?_, h.depth_le⟩⟩
  have := (h.isPrefix q hq).length_le
  simpa [Path.depth, Path.visits, Path.extend] using this

end Backed

theorem Limits.push_eq (l : Limits) (p : Path) (pending : List Path) :
    l.push p pending = match l.full? pending.length with
      | some fault => .error fault
      | none => .ok (p :: pending) := by
  grind [push, full?]

namespace Matcher

variable {m : Matcher} {text : String} {p : Path} {rest : List Path}
  {machine machine' : Machine} {trail : List Visit}

theorem trailFollow_onTrail (machine : Machine) (edge : Edge) :
    m.trailFollow text p.frame (machine.onTrail trail) edge =
      (m.follow text p machine edge).map (·.onTrail trail) := by
  unfold trailFollow follow
  simp only [Machine.onTrail, Path.frame, List.length_map, Limits.push_eq]
  cases m.attempt text machine.visited p.last edge with
  | entered offset =>
    cases m.limits.full? machine.pending.length <;> rfl
  | _ => rfl

theorem foldlM_trailFollow_onTrail (machine : Machine) (edges : List Edge) :
    edges.foldlM (m.trailFollow text p.frame) (machine.onTrail trail) =
      (edges.foldlM (m.follow text p) machine).map (·.onTrail trail) :=
  foldlM_map_state (f := (·.onTrail trail)) trailFollow_onTrail edges machine

/-- Trying an edge keeps what the trail has to hold. -/
theorem backed_follow {edge : Edge} (h : Backed p.visits machine.pending)
    (hf : m.follow text p machine edge = .ok machine') : Backed p.visits machine'.pending := by
  unfold follow at hf
  split at hf
  case h_5 offset _ =>
    split at hf
    case h_1 => cases hf
    case h_2 pending hpush =>
      obtain rfl := Except.ok.inj hf
      obtain rfl := Limits.eq_cons_of_push hpush
      exact h.extend _
  all_goals cases hf
  all_goals exact h

theorem backed_foldlM_follow {edges : List Edge} (h : Backed p.visits machine.pending)
    (hf : edges.foldlM (m.follow text p) machine = .ok machine') :
    Backed p.visits machine'.pending :=
  foldlM_invariant (fun next => Backed p.visits next.pending) (fun _ _ _ => backed_follow) h hf

theorem takeUp_onTrail (machine : Machine) (h : Backed trail (p :: rest)) :
    (machine.onTrail trail).takeUp p.frame (rest.map Path.frame) =
      (machine.takeUp rest).onTrail p.visits := by
  simp [TrailMachine.takeUp, Machine.onTrail, Machine.takeUp, Path.frame, h.take_eq]

/-- A turn of the machine with a trail is a turn of the machine with paths. -/
theorem trailTurn_onTrail (m : Matcher) (text : String) (h : Backed trail machine.pending) :
    match m.turn text machine with
    | .halted result =>
      m.trailTurn text (machine.onTrail trail) = .halted (result.map (·.map Path.visits))
    | .next machine' => ∃ trail', Backed trail' machine'.pending ∧
        m.trailTurn text (machine.onTrail trail) = .next (machine'.onTrail trail') := by
  unfold turn trailTurn
  cases hp : machine.pending with
  | nil => simp [Machine.onTrail, hp, Except.map]
  | cons p rest =>
    rw [hp] at h
    have htake := takeUp_onTrail machine h
    have hpending : (machine.onTrail trail).pending = p.frame :: rest.map Path.frame := by
      simp [Machine.onTrail, hp]
    have hspent : (machine.onTrail trail).spent = machine.spent := rfl
    have hvisit : p.frame.visit = p.last := rfl
    simp only [hpending, hspent, hvisit, htake]
    cases m.limits.exhausted? machine.spent with
    | some limit => rfl
    | none =>
      cases m.automaton.isFinal p.last.state with
      | true => rfl
      | false =>
        cases m.automaton.edges? p.last.state with
        | none => rfl
        | some edges =>
          simp only [foldlM_trailFollow_onTrail, Bool.false_eq_true, if_false]
          cases hf : edges.reverse.foldlM (m.follow text p) (machine.takeUp rest) with
          | error fault => rfl
          | ok machine' => exact ⟨p.visits, backed_foldlM_follow h.takeUp hf, rfl⟩

/-- Given more turns than the machine with paths weighs, the machine with a trail halts with the
visits of the same path. -/
theorem trailWithin_onTrail (h : Backed trail machine.pending) {n : Nat}
    (hn : m.weight text machine < n) :
    m.trailWithin text n (machine.onTrail trail) =
      some ((m.run text machine).map (·.map Path.visits)) := by
  induction n generalizing machine trail with
  | zero => exact absurd hn (Nat.not_lt_zero _)
  | succ n ih =>
    have hturn := trailTurn_onTrail m text h
    unfold trailWithin
    cases hm : m.turn text machine with
    | halted result =>
      rw [hm] at hturn
      rw [hturn, run_of_halted hm]
    | next machine' =>
      rw [hm] at hturn
      obtain ⟨trail', hbacked, hnext⟩ := hturn
      have hlt := weight_lt_of_turn hm
      rw [hnext, run_of_next hm]
      exact ih hbacked (by omega)

/-- A search with a single trail halts, with the visits of the path that `exec` gives. -/
theorem trailExec_eq (m : Matcher) (text : String) (start : Nat) :
    ∃ turns, ∀ n, turns ≤ n →
      m.trailExec text start n = some ((m.exec text start).map (·.map Path.visits)) := by
  unfold trailExec exec machineAt
  split
  · exact ⟨0, fun n _ => rfl⟩
  · simp only [Limits.push_eq, List.length_nil]
    cases m.limits.full? 0 with
    | some fault => exact ⟨0, fun n _ => rfl⟩
    | none =>
      let machine : Machine :=
        { pending := [⟨⟨0, start⟩, []⟩]
          visited := (Visited.empty m.automaton.stateCount).insert 0 start }
      have hbacked : Backed [] machine.pending := ⟨by simp [machine], by simp [machine]⟩
      exact ⟨m.weight text machine + 1, fun n hn => trailWithin_onTrail hbacked hn⟩

end Matcher

end PatternAutomata
