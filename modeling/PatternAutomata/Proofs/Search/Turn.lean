import PatternAutomata.Proofs.Search.Run

/-!
# Turns of a search

On a closed automaton and without limits a turn never fails. It takes up the first pending path,
and unless that path accepts it tries the edges of its last state from the last to the first.
Here is what that does to the pending paths and to the visits seen, how it ends when there is a
limit to the pending paths, and how a statement about one turn becomes one about a whole search.

## Main definitions

* `Machine.explore` — the machine after an edge has been tried, as a total function.
* `Machine.seen`, `marks` — the visits seen, and those that a turn adds.
* `Matcher.execWithin` — the result of a search that halts within so many turns.

## Main statements

* `Matcher.foldlM_follow_cases` — trying edges under limits.
* `Automaton.exec_induction` — what holds of every machine of a search, and so of its result.
-/
namespace PatternAutomata

/-- The visits already entered without consuming. -/
def Machine.seen (machine : Machine) : Set Visit :=
  {v | machine.visited.contains v.state v.offset = true}

/-- The machine after trying `edge` at the end of `p`. -/
def Machine.explore (flags : Flags) (text : String) (p : Path) (edge : Edge)
    (machine : Machine) : Machine :=
  match edge.next? flags text p.last with
  | none => machine
  | some w =>
    if edge.label.isEpsilon && machine.visited.contains w.state w.offset then machine
    else { machine with
      pending := p.extend w :: machine.pending
      visited := Matcher.record machine.visited edge w.offset }

/-- The visits to which some of the given edges lead from `v` without consuming. -/
def marks (flags : Flags) (text : String) (edges : List Edge) (v : Visit) : Set Visit :=
  {w | ∃ e ∈ edges, e.label.isEpsilon = true ∧ e.next? flags text v = some w}

namespace Machine

variable {flags : Flags} {text : String} {p : Path} {edge : Edge} {machine : Machine} {w : Visit}

theorem mem_seen : w ∈ machine.seen ↔ machine.visited.contains w.state w.offset = true := Iff.rfl

theorem explore_of_none (h : edge.next? flags text p.last = none) :
    machine.explore flags text p edge = machine := by
  simp [explore, h]

theorem explore_of_seen (h : edge.next? flags text p.last = some w)
    (he : edge.label.isEpsilon = true) (hw : w ∈ machine.seen) :
    machine.explore flags text p edge = machine := by
  have hw' : machine.visited.contains w.state w.offset = true := hw
  simp [explore, h, he, hw']

theorem explore_of_new (h : edge.next? flags text p.last = some w)
    (hw : edge.label.isEpsilon = true → w ∉ machine.seen) :
    machine.explore flags text p edge =
      { machine with
        pending := p.extend w :: machine.pending
        visited := Matcher.record machine.visited edge w.offset } := by
  have hw' : ¬(edge.label.isEpsilon && machine.visited.contains w.state w.offset) = true := by
    simp only [Bool.and_eq_true, not_and]
    exact hw
  rw [explore, h]
  exact if_neg hw'

/-- Trying an edge either changes nothing or puts one path in front. -/
theorem explore_cases (flags : Flags) (text : String) (p : Path) (edge : Edge)
    (machine : Machine) :
    machine.explore flags text p edge = machine ∨
      ∃ w, edge.next? flags text p.last = some w ∧
        (edge.label.isEpsilon = true → w ∉ machine.seen) ∧
        machine.explore flags text p edge =
          { machine with
            pending := p.extend w :: machine.pending
            visited := Matcher.record machine.visited edge w.offset } := by
  cases h : edge.next? flags text p.last with
  | none => exact .inl (explore_of_none h)
  | some w =>
    by_cases hs : edge.label.isEpsilon = true ∧ w ∈ machine.seen
    · exact .inl (explore_of_seen h hs.1 hs.2)
    · have hn : edge.label.isEpsilon = true → w ∉ machine.seen := fun he hw => hs ⟨he, hw⟩
      exact .inr ⟨w, rfl, hn, explore_of_new h hn⟩

@[simp] theorem size_explore :
    (machine.explore flags text p edge).visited.size = machine.visited.size := by
  rcases explore_cases flags text p edge machine with h | ⟨w, -, -, h⟩
  · rw [h]
  · rw [h]
    simp only [Matcher.record]
    split <;> simp

theorem mem_seen_explore (ht : edge.target < machine.visited.size) {u : Visit} :
    u ∈ (machine.explore flags text p edge).seen ↔
      u ∈ machine.seen ∨ edge.label.isEpsilon = true ∧ edge.next? flags text p.last = some u := by
  cases hw : edge.next? flags text p.last with
  | none => simp [explore_of_none hw]
  | some w =>
    have hs := (Edge.next?_eq_some_iff.1 hw).1
    by_cases he : edge.label.isEpsilon = true
    · by_cases hm : w ∈ machine.seen
      · rw [explore_of_seen hw he hm]
        grind
      · rw [explore_of_new hw fun _ => hm]
        obtain ⟨id, offset⟩ := u
        obtain ⟨id', offset'⟩ := w
        simp only at hs
        subst hs
        simp only [mem_seen, Matcher.record, he, if_true,
          Visited.contains_insert ht, Bool.or_eq_true, Bool.and_eq_true, beq_iff_eq, true_and,
          Option.some.injEq, Visit.mk.injEq]
        grind
    · rw [explore_of_new hw fun h => absurd h he]
      simp [mem_seen, Matcher.record, he]

section Sweep

variable (flags text p machine)

@[simp] theorem size_foldr_explore (edges : List Edge) :
    (edges.foldr (explore flags text p) machine).visited.size = machine.visited.size := by
  induction edges with
  | nil => rfl
  | cons e edges ih => rw [List.foldr_cons, size_explore, ih]

/-- Trying edges adds their marks to the visits seen. -/
theorem seen_foldr_explore (edges : List Edge)
    (ht : ∀ e ∈ edges, e.target < machine.visited.size) :
    (edges.foldr (explore flags text p) machine).seen =
      machine.seen ∪ marks flags text edges p.last := by
  ext u
  induction edges with
  | nil => simp [marks]
  | cons e edges ih =>
    have ih := ih fun e he => ht e (List.mem_cons_of_mem _ he)
    rw [List.foldr_cons, mem_seen_explore (by simpa using ht e List.mem_cons_self), ih]
    simp only [marks, Set.mem_union, Set.mem_ofPred_eq, List.mem_cons, exists_eq_or_imp]
    grind

/-- The paths that trying edges puts in front go along one of the edges each, to a visit that was
not seen at first. -/
theorem exists_pending_foldr (edges : List Edge)
    (ht : ∀ e ∈ edges, e.target < machine.visited.size) :
    ∃ front, (edges.foldr (explore flags text p) machine).pending = front ++ machine.pending ∧
      ∀ q ∈ front, ∃ e ∈ edges, ∃ w, q = p.extend w ∧ e.next? flags text p.last = some w ∧
        (e.label.isEpsilon = true → w ∉ machine.seen) := by
  induction edges with
  | nil => exact ⟨[], rfl, by simp⟩
  | cons e edges ih =>
    have ht' : ∀ e ∈ edges, e.target < machine.visited.size :=
      fun e he => ht e (List.mem_cons_of_mem _ he)
    obtain ⟨front, hfront, hmem⟩ := ih ht'
    rw [List.foldr_cons]
    rcases explore_cases flags text p e (edges.foldr (explore flags text p) machine) with
      h | ⟨w, hw, hn, h⟩
    · refine ⟨front, by rw [h, hfront], fun q hq => ?_⟩
      obtain ⟨e', he', h'⟩ := hmem q hq
      exact ⟨e', List.mem_cons_of_mem _ he', h'⟩
    · refine ⟨p.extend w :: front, by rw [h, hfront]; rfl, fun q hq => ?_⟩
      rcases List.mem_cons.1 hq with rfl | hq
      · refine ⟨e, List.mem_cons_self, w, rfl, hw, fun he hs => hn he ?_⟩
        rw [seen_foldr_explore flags text p machine edges ht']
        exact .inl hs
      · obtain ⟨e', he', h'⟩ := hmem q hq
        exact ⟨e', List.mem_cons_of_mem _ he', h'⟩

theorem pending_suffix_explore (e : Edge) :
    machine.pending <:+ (machine.explore flags text p e).pending := by
  rcases explore_cases flags text p e machine with h | ⟨w, -, -, h⟩
  · simp [h]
  · rw [h]
    exact List.suffix_cons _ _

/-- Every visit that an edge leads to and that was not seen at first gets a path, if not from that
edge then from another one further back. -/
theorem extend_mem_pending_foldr (edges : List Edge)
    (ht : ∀ e ∈ edges, e.target < machine.visited.size) {e : Edge} {w : Visit} (he : e ∈ edges)
    (hw : e.next? flags text p.last = some w)
    (hn : e.label.isEpsilon = true → w ∉ machine.seen) :
    p.extend w ∈ (edges.foldr (explore flags text p) machine).pending := by
  induction edges generalizing e with
  | nil => cases he
  | cons e' edges ih =>
    have ht' : ∀ e ∈ edges, e.target < machine.visited.size :=
      fun e he => ht e (List.mem_cons_of_mem _ he)
    have hsuffix :=
      pending_suffix_explore flags text p (edges.foldr (explore flags text p) machine) e'
    rw [List.foldr_cons]
    rcases List.mem_cons.1 he with rfl | he
    · by_cases hs : e.label.isEpsilon = true ∧
          w ∈ (edges.foldr (explore flags text p) machine).seen
      · rw [seen_foldr_explore flags text p machine edges ht'] at hs
        obtain ⟨e', he', hi, hw'⟩ := hs.2.resolve_left (hn hs.1)
        exact hsuffix.subset (ih ht' he' hw' fun _ => hn hs.1)
      · rw [explore_of_new hw fun hi hm => hs ⟨hi, hm⟩]
        exact List.mem_cons_self
    · exact hsuffix.subset (ih ht' he hw hn)

end Sweep

end Machine

theorem Limits.push_cases (l : Limits) (p : Path) (pending : List Path) :
    l.push p pending = .ok (p :: pending) ∨
      ∃ limit, l.stack = some limit ∧ limit < (p :: pending).length ∧
        l.push p pending = .error (.stackExceeded limit) := by
  grind [Limits.push]

namespace Matcher

variable {m : Matcher} {text : String} {p : Path} {machine : Machine}

/-- An edge to a state that is there is entered just when `explore` adds a path. -/
theorem attempt_cases (m : Matcher) (text : String) (p : Path) {edge : Edge}
    (ht : edge.target < machine.visited.size) :
    (∀ offset, m.attempt text machine.visited p.last edge ≠ .entered offset) ∧
        m.attempt text machine.visited p.last edge ≠ .missing ∧
        machine.explore m.automaton.flags text p edge = machine ∨
      ∃ offset, m.attempt text machine.visited p.last edge = .entered offset ∧
        machine.explore m.automaton.flags text p edge =
          { machine with
            pending := p.extend ⟨edge.target, offset⟩ :: machine.pending
            visited := record machine.visited edge offset } := by
  obtain ⟨label, target⟩ := edge
  cases label with
  | epsilon guard =>
    cases guard <;>
      grind [attempt, attemptEpsilon, Machine.explore, Edge.next?, Label.pass?, Label.isEpsilon]
  | _ =>
    simp only [attempt, Machine.explore, Edge.next?, Label.pass?]
    cases hc : Text.charAt text p.last.offset <;> grind [Label.isEpsilon]

/-- Trying an edge does what `explore` says, unless there is no room for the path it adds. -/
theorem follow_cases {edge : Edge} (ht : edge.target < machine.visited.size) :
    m.follow text p machine edge = .ok (machine.explore m.automaton.flags text p edge) ∨
      ∃ limit, m.limits.stack = some limit ∧
        limit < (machine.explore m.automaton.flags text p edge).pending.length ∧
        m.follow text p machine edge = .error (.stackExceeded limit) := by
  unfold follow
  rcases attempt_cases m text p ht with ⟨hne, hmissing, hsame⟩ | ⟨offset, hentered, hnew⟩
  · left
    rw [hsame]
    split <;> grind
  · rw [hnew, hentered]
    rcases m.limits.push_cases (p.extend ⟨edge.target, offset⟩) machine.pending with
      hpush | ⟨limit, hlimit, hlt, hpush⟩
    · left
      simp [hpush]
    · exact .inr ⟨limit, hlimit, hlt, by simp [hpush]⟩

theorem foldlM_follow_cases (m : Matcher) (text : String) (p : Path) {edges : List Edge}
    (ht : ∀ e ∈ edges, e.target < machine.visited.size) :
    edges.reverse.foldlM (m.follow text p) machine =
        .ok (edges.foldr (Machine.explore m.automaton.flags text p) machine) ∨
      ∃ limit, m.limits.stack = some limit ∧
        limit < (edges.foldr (Machine.explore m.automaton.flags text p) machine).pending.length ∧
        edges.reverse.foldlM (m.follow text p) machine = .error (.stackExceeded limit) := by
  rw [List.foldlM_reverse]
  induction edges with
  | nil => exact .inl rfl
  | cons e edges ih =>
    have hsuffix := Machine.pending_suffix_explore m.automaton.flags text p
      (edges.foldr (Machine.explore m.automaton.flags text p) machine) e
    rw [List.foldrM_cons, List.foldr_cons]
    rcases ih fun e he => ht e (List.mem_cons_of_mem _ he) with h | ⟨limit, hlimit, hlt, h⟩
    · rw [h]
      exact follow_cases (by simpa using ht e List.mem_cons_self)
    · exact .inr ⟨limit, hlimit, hlt.trans_le hsuffix.length_le, by rw [h]; rfl⟩

end Matcher

namespace Automaton

variable {a : Automaton} {text : String}

/-- What every machine of a search in a closed automaton satisfies. -/
structure Ready (a : Automaton) (machine : Machine) : Prop where
  size_visited : machine.visited.size = a.stateCount
  state_lt : ∀ p ∈ machine.pending, p.last.state < a.stateCount

theorem Ready.target_lt {machine : Machine} {id : Nat} (hr : a.Ready machine) (hc : a.Closed) :
    ∀ e ∈ a.edgesOf id, e.target < machine.visited.size := by
  rw [hr.size_visited]
  exact hc.target_lt id

/-- The machine after a turn that takes up `p`, its last state not being final. -/
def afterTurn (a : Automaton) (text : String) (machine : Machine) (p : Path)
    (rest : List Path) : Machine :=
  (a.edgesOf p.last.state).foldr (Machine.explore a.flags text p) (machine.takeUp rest)

theorem turn_of_nil (m : Matcher) (text : String) {machine : Machine}
    (hp : machine.pending = []) : m.turn text machine = .halted (.ok none) := by
  simp [Matcher.turn, hp]

theorem turn_of_final (text : String) {machine : Machine} {p : Path} {rest : List Path}
    (hp : machine.pending = p :: rest) (hf : a.isFinal p.last.state = true) :
    Matcher.turn ⟨a, {}⟩ text machine = .halted (.ok (some p)) := by
  simp [Matcher.turn, hp, Limits.exhausted?, hf]

theorem turn_eq_afterTurn (text : String) {machine : Machine} {p : Path} {rest : List Path}
    (hc : a.Closed)
    (hr : a.Ready machine) (hp : machine.pending = p :: rest)
    (hf : a.isFinal p.last.state = false) :
    Matcher.turn ⟨a, {}⟩ text machine = .next (a.afterTurn text machine p rest) := by
  have hlt := hr.state_lt p (hp ▸ List.mem_cons_self)
  have ht : ∀ e ∈ a.edgesOf p.last.state, e.target < (machine.takeUp rest).visited.size :=
    hr.target_lt hc
  rcases Matcher.foldlM_follow_cases ⟨a, {}⟩ text p ht with h | ⟨limit, hlimit, -⟩
  · simp [Matcher.turn, hp, Limits.exhausted?, hf, edges?_eq_some hlt, h, afterTurn]
  · cases hlimit

theorem Ready.afterTurn {machine : Machine} {p : Path} {rest : List Path} (hc : a.Closed)
    (hr : a.Ready machine) (hp : machine.pending = p :: rest) :
    a.Ready (a.afterTurn text machine p rest) := by
  have ht : ∀ e ∈ a.edgesOf p.last.state, e.target < (machine.takeUp rest).visited.size :=
    hr.target_lt hc
  refine ⟨by simpa [Automaton.afterTurn, Machine.takeUp] using hr.size_visited, fun q hq => ?_⟩
  obtain ⟨front, hfront, hmem⟩ := Machine.exists_pending_foldr a.flags text p _ _ ht
  rw [Automaton.afterTurn, hfront, List.mem_append] at hq
  rcases hq with hq | hq
  · obtain ⟨e, he, w, rfl, hw, -⟩ := hmem q hq
    exact (Edge.next?_eq_some_iff.1 hw).1 ▸ hc.target_lt _ e he
  · exact hr.state_lt q (hp ▸ List.mem_cons_of_mem _ hq)

/-- The machine at the beginning of a search without limits. -/
def machineAt (a : Automaton) (start : Nat) : Machine :=
  { pending := [⟨⟨0, start⟩, []⟩]
    visited := (Visited.empty a.stateCount).insert 0 start }

theorem machineAt_eq (hc : a.Closed) (start : Nat) :
    Matcher.machineAt ⟨a, {}⟩ start = .ok (a.machineAt start) := by
  have hpos := hc.pos.ne'
  simp [Matcher.machineAt, machineAt, Limits.push, hpos]

theorem ready_machineAt (hc : a.Closed) (start : Nat) : a.Ready (a.machineAt start) := by
  refine ⟨by simp [machineAt], fun p hp => ?_⟩
  rw [List.mem_singleton.1 hp]
  exact hc.pos

theorem seen_machineAt (hc : a.Closed) (start : Nat) :
    (a.machineAt start).seen = {⟨0, start⟩} := by
  ext ⟨id, offset⟩
  simp [Machine.mem_seen, machineAt,
    @Visited.contains_insert (.empty a.stateCount) 0 (by simpa using hc.pos)]

/-- A search without limits in a closed automaton gives a result, and about the result holds what
follows from an invariant of its machines. -/
theorem exec_induction (hc : a.Closed) (Inv : Machine → Prop) {Post : Option Path → Prop}
    (start : Nat) (init : Inv (a.machineAt start))
    (reject : ∀ machine, Inv machine → machine.pending = [] → Post none)
    (accept : ∀ machine p rest, Inv machine → machine.pending = p :: rest →
      a.isFinal p.last.state = true → Post (some p))
    (turn : ∀ machine p rest, a.Ready machine → Inv machine → machine.pending = p :: rest →
      a.isFinal p.last.state = false → Inv (a.afterTurn text machine p rest)) :
    ∃ result, Matcher.exec ⟨a, {}⟩ text start = .ok result ∧ Post result := by
  have run (machine : Machine) (hr : a.Ready machine) (hi : Inv machine) :
      ∃ result, Matcher.run ⟨a, {}⟩ text machine = .ok result ∧ Post result := by
    induction hn : Matcher.weight ⟨a, {}⟩ text machine using Nat.strong_induction_on
      generalizing machine with
    | _ n ih =>
      subst hn
      cases hp : machine.pending with
      | nil => exact ⟨none, Matcher.run_of_halted (turn_of_nil _ text hp), reject machine hi hp⟩
      | cons p rest =>
        cases hf : a.isFinal p.last.state with
        | true =>
          exact ⟨some p, Matcher.run_of_halted (turn_of_final text hp hf),
            accept machine p rest hi hp hf⟩
        | false =>
          have hturn := turn_eq_afterTurn text hc hr hp hf
          rw [Matcher.run_of_next hturn]
          exact ih _ (Matcher.weight_lt_of_turn hturn) _ (hr.afterTurn hc hp)
            (turn machine p rest hr hi hp hf) rfl
  obtain ⟨result, hresult, hpost⟩ := run _ (ready_machineAt hc start) init
  refine ⟨result, ?_, hpost⟩
  rw [Matcher.exec, machineAt_eq hc start]
  exact hresult

end Automaton

namespace Matcher

/-- What the machine halts with, if it halts within `n` turns. -/
def within (m : Matcher) (text : String) : Nat → Machine → Option (Except Fault (Option Path))
  | 0, _ => none
  | n + 1, machine =>
    match m.turn text machine with
    | .halted result => some result
    | .next machine' => m.within text n machine'

theorem run_of_within {m : Matcher} {text : String} {n : Nat} {machine : Machine}
    {result : Except Fault (Option Path)} (h : m.within text n machine = some result) :
    m.run text machine = result := by
  induction n generalizing machine with
  | zero => cases h
  | succ n ih =>
    rw [within] at h
    split at h
    case h_1 hturn => rw [run_of_halted hturn, Option.some.inj h]
    case h_2 hturn => rw [run_of_next hturn, ih h]

/-- The result of a search from `start`, if it halts within `n` turns. -/
def execWithin (m : Matcher) (text : String) (start n : Nat) :
    Option (Except Fault (Option Path)) :=
  match m.machineAt start with
  | .error fault => some (.error fault)
  | .ok machine => m.within text n machine

theorem exec_of_execWithin {m : Matcher} {text : String} {start n : Nat}
    {result : Except Fault (Option Path)} (h : m.execWithin text start n = some result) :
    m.exec text start = result := by
  unfold execWithin at h
  unfold exec
  cases hstart : m.machineAt start with
  | error fault =>
    rw [hstart] at h
    exact Option.some.inj h
  | ok machine =>
    rw [hstart] at h
    exact run_of_within h

end Matcher

end PatternAutomata
