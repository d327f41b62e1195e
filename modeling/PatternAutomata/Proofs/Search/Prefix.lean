import Mathlib.Data.List.Forall2
import PatternAutomata.Proofs.Search.Turn
import PatternAutomata.Proofs.Text.Slice

/-!
# What a search sees of the text before it

A search looks back no farther than at the character before the place where it starts. So two texts
that go on alike can be searched in lock step, if what precedes is empty in both or ends in the same
character in both: every offset in one search is as far from its start as that in the other.

## Main definitions

* `Path.behind` — a path through a text as a path through that text behind another one.
* `Fault.Alike` — the same fault, or results that are related.
* `Machine.Abreast` — machines that stand at the same place behind either text.

## Main statements

* `Text.charAt_append`, `Text.charBefore_append` — the characters of a text behind another one.
* `Matcher.turn_abreast`, `Matcher.run_abreast` — what one turn keeps, and a whole run.
* `Matcher.exec_append_congr` — a search depends on what precedes only through its last character.
-/
namespace PatternAutomata

namespace Text

variable {before before' text : String} {k : Nat}

theorem charAt_append (before text : String) (k : Nat) :
    charAt (before ++ text) (before.utf8ByteSize + k) = charAt text k := by
  refine Option.ext fun c => ?_
  rw [charAt_eq_some_iff, charAt_eq_some_iff]
  constructor
  · rintro ⟨b, after, heq, hsize⟩
    obtain ⟨mid, rfl, rfl⟩ := exists_between heq (by omega)
    rw [String.utf8ByteSize_append] at hsize
    exact ⟨mid, after, rfl, by omega⟩
  · rintro ⟨b, after, rfl, rfl⟩
    exact ⟨before ++ b, after, by rw [String.append_assoc], by simp⟩

theorem toList_getLast?_eq_some_iff {c : Char} :
    before.toList.getLast? = some c ↔ ∃ b, before = b ++ String.singleton c := by
  rw [List.getLast?_eq_some_iff]
  constructor
  · rintro ⟨cs, h⟩
    exact ⟨String.ofList cs, String.toList_injective (by simpa using h)⟩
  · rintro ⟨b, rfl⟩
    exact ⟨b.toList, by simp⟩

/-- What lies between `before` and a place further on is not empty, so the character before that
place is its last one. -/
theorem charBefore_append (before text : String) (k : Nat) :
    charBefore (before ++ text) (before.utf8ByteSize + k) =
      if k = 0 then before.toList.getLast? else charBefore text k := by
  refine Option.ext fun c => ?_
  rw [charBefore_eq_some_iff]
  split
  · rename_i hk
    rw [hk, toList_getLast?_eq_some_iff]
    constructor
    · rintro ⟨b, after, heq, hsize⟩
      exact ⟨b, (eq_of_append_eq heq hsize.symm).1⟩
    · rintro ⟨b, rfl⟩
      exact ⟨b, text, rfl, rfl⟩
  · rename_i hk
    rw [charBefore_eq_some_iff]
    constructor
    · rintro ⟨b, after, heq, hsize⟩
      obtain ⟨mid, hmid, rfl⟩ := exists_between heq (by omega)
      rw [hmid, String.utf8ByteSize_append] at hsize
      have hne : mid.toList ≠ [] := fun hnil => by
        rw [String.toList_eq_nil_iff.1 hnil, String.utf8ByteSize_empty] at hsize
        omega
      have hlast : mid.toList.getLast? = some c := by
        rw [← List.getLast?_append_of_ne_nil before.toList hne, ← String.toList_append, ← hmid,
          toList_getLast?_eq_some_iff]
        exact ⟨b, rfl⟩
      obtain ⟨b', rfl⟩ := toList_getLast?_eq_some_iff.1 hlast
      exact ⟨b', after, rfl, by omega⟩
    · rintro ⟨b, after, rfl, rfl⟩
      refine ⟨before ++ b, after, ?_, ?_⟩
      · rw [← String.append_assoc, ← String.append_assoc]
      · rw [String.append_assoc, String.utf8ByteSize_append]

/-- Two texts that precede, both empty or with the same last character. -/
theorem charBefore_append_congr (h : before.toList.getLast? = before'.toList.getLast?)
    (text : String) (k : Nat) :
    charBefore (before ++ text) (before.utf8ByteSize + k) =
      charBefore (before' ++ text) (before'.utf8ByteSize + k) := by
  rw [charBefore_append, charBefore_append, h]

theorem utf8ByteSize_eq_zero_congr (h : before.toList.getLast? = before'.toList.getLast?) :
    before.utf8ByteSize = 0 ↔ before'.utf8ByteSize = 0 := by
  have hnone {b : String} : b.utf8ByteSize = 0 ↔ b.toList.getLast? = none := by
    rw [String.utf8ByteSize_eq_zero_iff, List.getLast?_eq_none_iff, String.toList_eq_nil_iff]
  rw [hnone, hnone, h]

end Text

/-- An anchor looks at one character on either side at most. -/
theorem Anchor.holds_append_congr {before before' : String}
    (h : before.toList.getLast? = before'.toList.getLast?) (guard : Anchor) (text : String)
    (k : Nat) (multiline : Bool) :
    guard.holds (before ++ text) (before.utf8ByteSize + k) multiline =
      guard.holds (before' ++ text) (before'.utf8ByteSize + k) multiline := by
  have hbefore := Text.charBefore_append_congr h text k
  have hat : Text.charAt (before ++ text) (before.utf8ByteSize + k) =
      Text.charAt (before' ++ text) (before'.utf8ByteSize + k) := by
    rw [Text.charAt_append, Text.charAt_append]
  have hzero : (before.utf8ByteSize + k == 0) = (before'.utf8ByteSize + k == 0) := by
    have := Text.utf8ByteSize_eq_zero_congr h
    rw [Bool.eq_iff_iff, beq_iff_eq, beq_iff_eq]
    omega
  have hsize : (before.utf8ByteSize + k == (before ++ text).utf8ByteSize) =
      (before'.utf8ByteSize + k == (before' ++ text).utf8ByteSize) := by
    rw [Bool.eq_iff_iff, beq_iff_eq, beq_iff_eq, String.utf8ByteSize_append,
      String.utf8ByteSize_append]
    omega
  simp only [holds, atWordBoundary, hbefore, hat, hzero, hsize]

/-! ### Places behind a text -/

variable {before before' text : String}

/-- The visit of a text as a visit of that text behind another one. -/
def Visit.behind (before : String) (v : Visit) : Visit :=
  ⟨v.state, before.utf8ByteSize + v.offset⟩

/-- The path through a text as a path through that text behind another one. -/
def Path.behind (before : String) (p : Path) : Path :=
  ⟨p.last.behind before, p.earlier.map (·.behind before)⟩

/-- What becomes of an edge in a text, and in that text behind another one. -/
def Attempt.behind (before : String) : Attempt → Attempt
  | .entered offset => .entered (before.utf8ByteSize + offset)
  | outcome => outcome

theorem Path.last_behind (before : String) (p : Path) :
    (p.behind before).last = p.last.behind before := rfl

theorem Path.extend_behind (before : String) (p : Path) (state k : Nat) :
    (p.behind before).extend ⟨state, before.utf8ByteSize + k⟩ =
      (p.extend ⟨state, k⟩).behind before := rfl

theorem Path.visits_behind (before : String) (p : Path) :
    (p.behind before).visits = p.visits.map (·.behind before) := by
  simp [Path.visits, Path.behind]

/-! ### Two searches in lock step -/

/-- The same fault, or results that are related. -/
inductive Fault.Alike {α β : Type} (R : α → β → Prop) : Except Fault α → Except Fault β → Prop
  | error (fault : Fault) : Alike R (.error fault) (.error fault)
  | ok {x : α} {y : β} : R x y → Alike R (.ok x) (.ok y)

theorem Fault.Alike.foldlM {α β γ : Type} {R : α → β → Prop} {f : α → γ → Except Fault α}
    {f' : β → γ → Except Fault β} (hf : ∀ x y c, R x y → Alike R (f x c) (f' y c)) (cs : List γ)
    {x : α} {y : β} (h : R x y) : Alike R (cs.foldlM f x) (cs.foldlM f' y) := by
  induction cs generalizing x y with
  | nil => exact .ok h
  | cons c cs ih =>
    rw [List.foldlM_cons, List.foldlM_cons]
    generalize hx : f x c = x', hy : f' y c = y'
    have hstep := hf x y c h
    rw [hx, hy] at hstep
    cases hstep with
    | error fault => exact .error fault
    | ok h => exact ih h

/-- The visits made are the same behind either text. -/
structure Visited.Abreast (before before' : String) (visited visited' : Visited) : Prop where
  size_eq : visited.size = visited'.size
  contains_eq : ∀ id k, visited.contains id (before.utf8ByteSize + k) =
    visited'.contains id (before'.utf8ByteSize + k)

/-- The pending paths and the visits made are the same behind either text. -/
structure Machine.Abreast (before before' : String) (machine machine' : Machine) : Prop where
  exists_pending : ∃ paths : List Path, machine.pending = paths.map (·.behind before) ∧
    machine'.pending = paths.map (·.behind before')
  visited : machine.visited.Abreast before before' machine'.visited
  spent_eq : machine.spent = machine'.spent

/-- No path is found behind either text, or the same one behind both. -/
def Path.Abreast (before before' : String) (found found' : Option Path) : Prop :=
  ∃ path : Option Path, found = path.map (·.behind before) ∧ found' = path.map (·.behind before')

/-- Both turns halt with results that are alike, or both go on. -/
inductive Turn.Abreast (before before' : String) : Turn → Turn → Prop
  | halted {result result' : Except Fault (Option Path)} :
      Fault.Alike (Path.Abreast before before') result result' →
      Abreast before before' (.halted result) (.halted result')
  | next {machine machine' : Machine} : machine.Abreast before before' machine' →
      Abreast before before' (.next machine) (.next machine')

/-- One more path can be pending behind both texts, or behind neither. -/
theorem Limits.push_behind (l : Limits) (before before' : String) (p : Path) (paths : List Path) :
    (∃ fault, l.push (p.behind before) (paths.map (·.behind before)) = .error fault ∧
      l.push (p.behind before') (paths.map (·.behind before')) = .error fault) ∨
    l.push (p.behind before) (paths.map (·.behind before)) =
        .ok ((p :: paths).map (·.behind before)) ∧
      l.push (p.behind before') (paths.map (·.behind before')) =
        .ok ((p :: paths).map (·.behind before')) := by
  unfold push
  cases l.stack with
  | none => exact .inr ⟨rfl, rfl⟩
  | some limit =>
    simp only [List.length_map]
    split
    · exact .inl ⟨_, rfl, rfl⟩
    · exact .inr ⟨rfl, rfl⟩

theorem Visited.Abreast.insert {visited visited' : Visited}
    (hv : visited.Abreast before before' visited') {id : Nat} (hid : id < visited.size) (k : Nat) :
    (visited.insert id (before.utf8ByteSize + k)).Abreast before before'
      (visited'.insert id (before'.utf8ByteSize + k)) where
  size_eq := by simpa using hv.size_eq
  contains_eq := fun id' k' => by
    have hid' : id < visited'.size := hv.size_eq ▸ hid
    have hoffset : (before.utf8ByteSize + k' == before.utf8ByteSize + k) =
        (before'.utf8ByteSize + k' == before'.utf8ByteSize + k) := by simp
    rw [contains_insert hid, contains_insert hid', hv.contains_eq, hoffset]

namespace Matcher

variable {m : Matcher} {machine machine' : Machine} {visited visited' : Visited}

/-- Only a state that is there is entered without consuming. -/
theorem lt_size_of_attempt {v : Visit} {edge : Edge} {offset : Nat}
    (h : m.attempt text visited v edge = .entered offset) (he : edge.label.isEpsilon = true) :
    edge.target < visited.size := by
  have hepsilon (h : attemptEpsilon visited edge.target v.offset = .entered offset) :
      edge.target < visited.size := by
    unfold attemptEpsilon at h
    split at h
    · cases h
    · exact Nat.lt_of_not_le ‹_›
  obtain ⟨label, target⟩ := edge
  cases label with
  | epsilon guard =>
    cases guard with
    | none => exact hepsilon h
    | some guard =>
      simp only [attempt] at h
      split at h
      · exact hepsilon h
      · cases h
  | _ => cases he

theorem attemptEpsilon_abreast (hv : visited.Abreast before before' visited') (target k : Nat) :
    ∃ outcome : Attempt,
      attemptEpsilon visited target (before.utf8ByteSize + k) = outcome.behind before ∧
      attemptEpsilon visited' target (before'.utf8ByteSize + k) = outcome.behind before' := by
  unfold attemptEpsilon
  rw [← hv.size_eq, ← hv.contains_eq]
  split
  · exact ⟨.missing, rfl, rfl⟩
  split
  · exact ⟨.seen, rfl, rfl⟩
  · exact ⟨.entered k, rfl, rfl⟩

section LockStep

variable (m text) (h : before.toList.getLast? = before'.toList.getLast?)

include h

theorem attempt_abreast (hv : visited.Abreast before before' visited') (v : Visit) (edge : Edge) :
    ∃ outcome : Attempt,
      m.attempt (before ++ text) visited (v.behind before) edge = outcome.behind before ∧
      m.attempt (before' ++ text) visited' (v.behind before') edge = outcome.behind before' := by
  have hepsilon := attemptEpsilon_abreast hv edge.target v.offset
  unfold attempt
  split
  · exact hepsilon
  · rename_i guard _
    rw [Visit.behind, Visit.behind, ← Anchor.holds_append_congr h]
    split
    · exact hepsilon
    · exact ⟨.blocked guard, rfl, rfl⟩
  · rw [Visit.behind, Visit.behind, Text.charAt_append, Text.charAt_append]
    split
    · exact ⟨.refused, rfl, rfl⟩
    · rename_i c hc
      split
      · exact ⟨.entered (v.offset + c.utf8Size), congrArg _ (Nat.add_assoc ..),
          congrArg _ (Nat.add_assoc ..)⟩
      · exact ⟨.refused, rfl, rfl⟩

theorem follow_abreast (hm : machine.Abreast before before' machine') (p : Path) (edge : Edge) :
    Fault.Alike (Machine.Abreast before before')
      (m.follow (before ++ text) (p.behind before) machine edge)
      (m.follow (before' ++ text) (p.behind before') machine' edge) := by
  obtain ⟨outcome, hfirst, hsecond⟩ :=
    attempt_abreast text m h hm.visited p.last edge
  unfold follow
  rw [Path.last_behind, Path.last_behind, hfirst, hsecond]
  cases outcome with
  | blocked | seen | refused => exact .ok hm
  | missing => exact .error _
  | entered k =>
    obtain ⟨⟨paths, hpaths, hpaths'⟩, hv, hspent⟩ := hm
    have hrecord : (record machine.visited edge (before.utf8ByteSize + k)).Abreast before before'
        (record machine'.visited edge (before'.utf8ByteSize + k)) := by
      unfold record
      split
      · rename_i he
        exact hv.insert (lt_size_of_attempt hfirst he) k
      · exact hv
    simp only [Attempt.behind, hpaths, hpaths', Path.extend_behind]
    rcases m.limits.push_behind before before' (p.extend ⟨edge.target, k⟩) paths with
      ⟨fault, hpush, hpush'⟩ | ⟨hpush, hpush'⟩
    · rw [hpush, hpush']
      exact .error fault
    · rw [hpush, hpush']
      exact .ok ⟨⟨_, rfl, rfl⟩, hrecord, hspent⟩

/-- Machines that stand at the same place take the same turn. -/
theorem turn_abreast (hm : machine.Abreast before before' machine') :
    (m.turn (before ++ text) machine).Abreast before before'
      (m.turn (before' ++ text) machine') := by
  obtain ⟨⟨paths, hpaths, hpaths'⟩, hv, hspent⟩ := hm
  cases paths with
  | nil =>
    rw [Automaton.turn_of_nil m _ hpaths, Automaton.turn_of_nil m _ hpaths']
    exact .halted (.ok ⟨none, rfl, rfl⟩)
  | cons p rest =>
    have hstate (before : String) : (p.behind before).last.state = p.last.state := rfl
    unfold turn
    rw [hpaths, hpaths', ← hspent, List.map_cons, List.map_cons]
    cases m.limits.exhausted? machine.spent with
    | some limit => exact .halted (.error _)
    | none =>
      dsimp only
      rw [hstate, hstate]
      by_cases hf : m.automaton.isFinal p.last.state = true
      · rw [if_pos hf, if_pos hf]
        exact .halted (.ok ⟨some p, rfl, rfl⟩)
      rw [if_neg hf, if_neg hf]
      cases m.automaton.edges? p.last.state with
      | none => exact .halted (.error _)
      | some edges =>
        have htaken : (machine.takeUp (rest.map (·.behind before))).Abreast before before'
            (machine'.takeUp (rest.map (·.behind before'))) :=
          ⟨⟨rest, rfl, rfl⟩, hv, congrArg (· + 1) hspent⟩
        have hfold := Fault.Alike.foldlM (fun _ _ edge hm => follow_abreast text m h hm p edge)
          edges.reverse htaken
        dsimp only
        generalize edges.reverse.foldlM (m.follow (before ++ text) _) _ = first,
          edges.reverse.foldlM (m.follow (before' ++ text) _) _ = second at hfold ⊢
        cases hfold with
        | error fault => exact .halted (.error fault)
        | ok hm => exact .next hm

/-- Machines that stand at the same place halt alike. -/
theorem run_abreast (hm : machine.Abreast before before' machine') :
    Fault.Alike (Path.Abreast before before') (m.run (before ++ text) machine)
      (m.run (before' ++ text) machine') := by
  fun_induction m.run (before ++ text) machine generalizing machine' with
  | case1 machine result hturn =>
    have hturns := turn_abreast text m h hm
    generalize hturn' : m.turn (before' ++ text) machine' = turn' at hturns
    rw [hturn] at hturns
    cases hturns with
    | halted hresult =>
      rw [run_of_halted hturn']
      exact hresult
  | case2 machine next hturn ih =>
    have hturns := turn_abreast text m h hm
    generalize hturn' : m.turn (before' ++ text) machine' = turn' at hturns
    rw [hturn] at hturns
    cases hturns with
    | next hnext =>
      rw [run_of_next hturn']
      exact ih hnext

theorem exec_abreast :
    Fault.Alike (Path.Abreast before before') (m.exec (before ++ text) before.utf8ByteSize)
      (m.exec (before' ++ text) before'.utf8ByteSize) := by
  unfold exec machineAt
  split
  · exact .error _
  rename_i hcount
  have hpush := m.limits.push_behind before before' ⟨⟨0, 0⟩, []⟩ []
  simp only [Path.behind, Visit.behind, List.map_nil, List.map_cons, Nat.add_zero] at hpush
  rcases hpush with ⟨fault, hpush, hpush'⟩ | ⟨hpush, hpush'⟩
  · rw [hpush, hpush']
    exact .error fault
  · rw [hpush, hpush']
    have hvisited : (Visited.empty m.automaton.stateCount).Abreast before before'
        (Visited.empty m.automaton.stateCount) :=
      ⟨rfl, fun _ _ => by simp⟩
    have hpos : 0 < (Visited.empty m.automaton.stateCount).size := by
      rw [Visited.size_empty]
      omega
    exact run_abreast text m h ⟨⟨[⟨⟨0, 0⟩, []⟩], rfl, rfl⟩, hvisited.insert hpos 0, rfl⟩

end LockStep

/-- A search depends on what precedes its start only through the last character there, if any: it
fails in the same way, finds nothing, or takes the same states at offsets that are as far apart as
the starts. -/
theorem exec_append_congr (m : Matcher) (h : before.toList.getLast? = before'.toList.getLast?)
    (text : String) :
    (∃ fault, m.exec (before ++ text) before.utf8ByteSize = .error fault ∧
      m.exec (before' ++ text) before'.utf8ByteSize = .error fault) ∨
    (m.exec (before ++ text) before.utf8ByteSize = .ok none ∧
      m.exec (before' ++ text) before'.utf8ByteSize = .ok none) ∨
    ∃ path path', m.exec (before ++ text) before.utf8ByteSize = .ok (some path) ∧
      m.exec (before' ++ text) before'.utf8ByteSize = .ok (some path') ∧
      path.states = path'.states ∧
      List.Forall₂ (fun o o' : Nat => (o : Int) - o' = before.utf8ByteSize - before'.utf8ByteSize)
        path.offsets path'.offsets := by
  have halike := exec_abreast text m h
  generalize m.exec (before ++ text) before.utf8ByteSize = result,
    m.exec (before' ++ text) before'.utf8ByteSize = result' at halike
  cases halike with
  | error fault => exact .inl ⟨fault, rfl, rfl⟩
  | ok hpath =>
    obtain ⟨_ | path, rfl, rfl⟩ := hpath
    · exact .inr (.inl ⟨rfl, rfl⟩)
    · refine .inr (.inr ⟨_, _, rfl, rfl, ?_, ?_⟩)
      · simp [Path.states, Path.visits_behind, Function.comp_def, Visit.behind]
      · simp only [Path.offsets, Path.visits_behind, List.map_map, List.forall₂_map_left_iff,
          List.forall₂_map_right_iff, List.forall₂_same, Function.comp_apply, Visit.behind]
        omega

/-- The automaton of a word of one letter at the end of the text. -/
def lastLetter : Automaton where
  states := #[[⟨.epsilon (some .wordBoundary), 1⟩], [⟨.charClass .word, 2⟩],
    [⟨.epsilon (some .finish), 3⟩], []]
  finals := [3]

/-- A blank precedes the letter in both texts, but not at the same offset. -/
theorem exec_append_congr_lastLetter :
    "1 ".toList.getLast? = "é ".toList.getLast? ∧
      ∃ path path', exec ⟨lastLetter, {}⟩ ("1 " ++ "a") 2 = .ok (some path) ∧
        exec ⟨lastLetter, {}⟩ ("é " ++ "a") 3 = .ok (some path') ∧ path.states = path'.states ∧
        List.Forall₂ (fun o o' : Nat => (o : Int) - o' = 2 - 3) path.offsets path'.offsets := by
  have h : "1 ".toList.getLast? = "é ".toList.getLast? := by decide
  have hexec : exec ⟨lastLetter, {}⟩ ("1 " ++ "a") "1 ".utf8ByteSize =
      .ok (some ⟨⟨3, 3⟩, [⟨2, 3⟩, ⟨1, 2⟩, ⟨0, 2⟩]⟩) :=
    exec_of_execWithin (n := 10) (by decide +kernel)
  rcases exec_append_congr ⟨lastLetter, {}⟩ h "a" with ⟨fault, hfault, -⟩ | ⟨hnone, -⟩ | haccepts
  · cases hexec.symm.trans hfault
  · cases hexec.symm.trans hnone
  · exact ⟨h, haccepts⟩

end Matcher

end PatternAutomata
