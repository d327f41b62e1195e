import PatternAutomata.Matcher
import PatternAutomata.Proofs.Search.Scanning

/-!
# Modes that are set

A mode that is set lets a search pass where it could not pass before, and never the other way round.
So every accepting run stays one. The search may be another, for it tries other edges and has seen
other visits, but there is something for it to find.

## Main statements

* `Label.pass?_mono` — what can be passed can be passed with more modes set.
* `Automaton.find_withFlags_mono` — with more modes set no match is lost.
-/
namespace PatternAutomata

/-- Every mode that is set in `f` is set in `g`. -/
instance : LE Flags :=
  ⟨fun f g => (f.multiline = true → g.multiline = true) ∧ (f.dotAll = true → g.dotAll = true)⟩

variable {f g : Flags} {text : String} {start : Nat}

/-! ### Labels -/

theorem Anchor.holds_mono {guard : Anchor} {offset : Nat} {multiline multiline' : Bool}
    (hle : multiline = true → multiline' = true)
    (h : guard.holds text offset multiline = true) :
    guard.holds text offset multiline' = true := by
  cases guard with
  | start | finish =>
    simp only [holds, Bool.or_eq_true, Bool.and_eq_true] at h ⊢
    exact h.imp_right (And.imp_left hle)
  | wordBoundary | notWordBoundary => exact h

theorem CharClass.contains_mono {k : CharClass} {c : Char} {dotAll dotAll' : Bool}
    (hle : dotAll = true → dotAll' = true) (h : k.contains c dotAll = true) :
    k.contains c dotAll' = true := by
  cases k with
  | any =>
    simp only [contains, Bool.or_eq_true] at h ⊢
    exact h.imp_left hle
  | _ => exact h

theorem Label.accepts_mono {l : Label} {c : Char} {dotAll dotAll' : Bool}
    (hle : dotAll = true → dotAll' = true) (h : l.accepts c dotAll = true) :
    l.accepts c dotAll' = true := by
  cases l with
  | charClass k => exact CharClass.contains_mono hle h
  | _ => exact h

/-- What can be passed can be passed with more modes set. -/
theorem Label.pass?_mono (hle : f ≤ g) {l : Label} {offset offset' : Nat}
    (h : l.pass? f text offset = some offset') : l.pass? g text offset = some offset' := by
  cases hl : l.isEpsilon with
  | true =>
    match l with
    | .epsilon none => exact h
    | .epsilon (some guard) =>
      obtain ⟨hguard, hsome⟩ := Option.ite_none_right_eq_some.1 h
      exact Option.ite_none_right_eq_some.2 ⟨Anchor.holds_mono hle.1 hguard, hsome⟩
  | false =>
    obtain ⟨c, hc, haccepts, hoffset⟩ := (pass?_consuming hl).1 h
    exact (pass?_consuming hl).2 ⟨c, hc, accepts_mono hle.2 haccepts, hoffset⟩

/-! ### Runs and searches -/

namespace Automaton

variable {a : Automaton}

theorem Step.mono (hle : f ≤ g) {v w : Visit} (h : { a with flags := f }.Step text v w) :
    { a with flags := g }.Step text v w := by
  obtain ⟨e, he, hw⟩ := h
  obtain ⟨hstate, hpass⟩ := Edge.next?_eq_some_iff.1 hw
  exact ⟨e, he, Edge.next?_eq_some_iff.2 ⟨hstate, Label.pass?_mono hle hpass⟩⟩

/-- Every accepting run stays one. -/
theorem Accepting.mono (hle : f ≤ g) {v : Visit} {run : List Visit}
    (h : { a with flags := f }.Accepting text v run) :
    { a with flags := g }.Accepting text v run := by
  induction h with
  | final hf => exact .final hf
  | step hs _ ih => exact .step (hs.mono hle) ih

theorem Closed.withFlags (hc : a.Closed) (f : Flags) : { a with flags := f }.Closed :=
  ⟨hc.pos, hc.target_lt⟩

end Automaton

namespace Matcher

variable {a : Automaton}

theorem exists_exec_withFlags (hc : a.Closed) (hle : f ≤ g) {path : Path}
    (h : (Matcher.withFlags ⟨a, {}⟩ f).exec text start = .ok (some path)) :
    ∃ path', (Matcher.withFlags ⟨a, {}⟩ g).exec text start = .ok (some path') := by
  obtain ⟨result, hexec, -, hsome⟩ := Automaton.exec_accepting text (hc.withFlags f) start
  obtain ⟨run, -, hrun⟩ := hsome path (Except.ok.inj (hexec.symm.trans h))
  obtain ⟨result', hexec', hnone, -⟩ := Automaton.exec_accepting text (hc.withFlags g) start
  cases result' with
  | none => exact absurd ⟨run, hrun.mono hle⟩ (hnone rfl)
  | some path' => exact ⟨path', hexec'⟩

/-- With more modes set the leftmost match is not farther right. -/
theorem exists_findAt_withFlags (hc : a.Closed) (hle : f ≤ g) {r : Match}
    (h : (Matcher.withFlags ⟨a, {}⟩ f).findAt text start = .ok (some r)) :
    ∃ r', (Matcher.withFlags ⟨a, {}⟩ g).findAt text start = .ok (some r') ∧
      r'.start ≤ r.start := by
  have hleft := leftmost_of_findAt (hc.withFlags f) h
  obtain ⟨path, hpath, -⟩ := hleft.exists_exec
  obtain ⟨path', hpath'⟩ := exists_exec_withFlags hc hle hpath
  have hnot {stop : Nat} (hrejects : (Matcher.withFlags ⟨a, {}⟩ g).Rejects text start stop) :
      stop ≤ r.start := by
    refine Nat.le_of_not_lt fun hlt => ?_
    cases hpath'.symm.trans (hrejects r.start hleft.le_start hlt hleft.ordered.start)
  rcases findAt_cases (m := Matcher.withFlags ⟨a, {}⟩ g) (hc.withFlags g) text start with
    ⟨fault, o, -, hfault⟩ | ⟨-, hrejects⟩ | ⟨r', hsome, hleft'⟩
  · obtain ⟨result, hexec, -⟩ := Automaton.exec_accepting text (hc.withFlags g) o
    cases hexec.symm.trans hfault
  · exact absurd hleft.lt_size (hnot hrejects).not_gt
  · exact ⟨r', hsome, hnot hleft'.rejects⟩

end Matcher

namespace Automaton

variable {a : Automaton}

/-- With more modes set a search without limits accepts where it has accepted before, and the
leftmost match of a text is not lost and not farther right. -/
theorem find_withFlags_mono (hpos : 0 < a.stateCount) (hd : a.danglingIds = []) (hle : f ≤ g)
    (text : String) :
    (∀ start path, (Matcher.withFlags ⟨a, {}⟩ f).exec text start = .ok (some path) →
      ∃ path', (Matcher.withFlags ⟨a, {}⟩ g).exec text start = .ok (some path')) ∧
    ∀ r, (Matcher.withFlags ⟨a, {}⟩ f).find text = .ok (some r) →
      ∃ r', (Matcher.withFlags ⟨a, {}⟩ g).find text = .ok (some r') ∧ r'.start ≤ r.start := by
  have hc := closed_of_danglingIds hpos hd
  exact ⟨fun _ _ h => Matcher.exists_exec_withFlags hc hle h,
    fun _ h => Matcher.exists_findAt_withFlags hc hle h⟩

/-- The automaton of `^.`, where `^` can be gone round any number of times. -/
def lineHead : Automaton where
  states := #[[⟨.epsilon (some .start), 0⟩, ⟨.epsilon (some .start), 1⟩],
    [⟨.charClass .any, 2⟩], []]
  finals := [2]

/-- Once a line end counts as a character, the match that begins behind it is not the first. -/
theorem find_withFlags_mono_lineHead :
    (0 < lineHead.stateCount ∧ lineHead.danglingIds = [] ∧
      (⟨true, false⟩ : Flags) ≤ ⟨true, true⟩) ∧
    (∃ path, (Matcher.withFlags ⟨lineHead, {}⟩ ⟨true, true⟩).exec "\nb" 1 = .ok (some path)) ∧
    ∃ r, (Matcher.withFlags ⟨lineHead, {}⟩ ⟨true, false⟩).find "\nb" = .ok (some r) ∧
      ∃ r', (Matcher.withFlags ⟨lineHead, {}⟩ ⟨true, true⟩).find "\nb" = .ok (some r') ∧
        r'.start ≤ r.start := by
  have hpos : 0 < lineHead.stateCount := by decide
  have hd : lineHead.danglingIds = [] := by decide
  have hle : (⟨true, false⟩ : Flags) ≤ ⟨true, true⟩ := ⟨fun h => h, fun _ => rfl⟩
  have hfirst : (Matcher.withFlags ⟨lineHead, {}⟩ ⟨true, false⟩).exec "\nb" 0 = .ok none :=
    Matcher.exec_of_execWithin (n := 10) (by decide +kernel)
  have hsecond : (Matcher.withFlags ⟨lineHead, {}⟩ ⟨true, false⟩).exec "\nb" 1 =
      .ok (some ⟨⟨2, 2⟩, [⟨1, 1⟩, ⟨0, 1⟩]⟩) :=
    Matcher.exec_of_execWithin (n := 10) (by decide +kernel)
  obtain ⟨r, hr⟩ : ∃ r,
      (Matcher.withFlags ⟨lineHead, {}⟩ ⟨true, false⟩).find "\nb" = .ok (some r) := by
    have hstarts : (Text.starts "\nb").dropWhile (· < 0) = [0, 1] := by decide
    rw [Matcher.find, Matcher.findAt, hstarts, Matcher.findAmong, hfirst]
    simp only [bind, Except.bind]
    rw [Matcher.findAmong, hsecond]
    exact ⟨_, rfl⟩
  obtain ⟨hexec, hfind⟩ := find_withFlags_mono hpos hd hle "\nb"
  exact ⟨⟨hpos, hd, hle⟩, hexec 1 _ hsecond, r, hr, hfind r hr⟩

end Automaton

end PatternAutomata
